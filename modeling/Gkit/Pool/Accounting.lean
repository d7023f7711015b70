import Mathlib
import Gkit.Pool.List

/-!
The accounting of `List` over every interleaving. A unit of `active` stands for an idle or for
a client between the moment its `Get` pops an idle or bumps the counter and the moment that
count is released: the count of an expired idle outlives its `Shutdown` call until `Get`
re-locks, and the count of a failed factory call until `releaseUnlocked`. Each client's step is
first described by what it does to the pool and to its own position (`Move.Sound`); the
system's invariants follow from that, one step lemma per action.
-/

namespace Gkit.Pool

/-! ### What a client's position holds -/

/-- Whether a client's position holds a unit of `active`. -/
@[simp] def Client.counted : Client → Bool
  | .checking .. | .shutting .. | .releasing .. | .creating | .failed | .holding _ => true
  | .ready _ | .waiting _ | .putShutdown _ => false

@[simp] def Client.units (c : Client) : Nat := if c.counted then 1 else 0

/-- The resource a client's position holds: popped, held, or about to be shut down. -/
@[simp] def Client.resources : Client → List Nat
  | .checking _ _ it _ => [it.s]
  | .shutting _ _ s | .holding s | .putShutdown s => [s]
  | .ready _ | .releasing .. | .waiting _ | .creating | .failed => []

/-- `active` is the idles and `k` further units, modulo `2^64`. -/
def Balanced (p : ListState) (k : Nat) : Prop := p.active = (p.idles.length + k) % M64

theorem addUint64_one (x : Nat) : addUint64 (x % M64) 1 = (x + 1) % M64 := by
  unfold addUint64 M64
  omega

/-- Adding `^uint64(n-1)` subtracts `n`, modulo `2^64`. -/
theorem addUint64_complement (x n : Nat) (hn : 0 < n) :
    addUint64 ((x + n) % M64) (complement (n - 1)) = x % M64 := by
  unfold addUint64 complement M64
  omega

theorem Balanced.of_eq {p p' : ListState} {k k' : Nat} (h : Balanced p k)
    (ha : p'.active = p.active) (hl : p'.idles.length + k' = p.idles.length + k) :
    Balanced p' k' := by
  unfold Balanced at h ⊢
  rw [ha, h, hl]

theorem Balanced.release {p : ListState} {k : Nat} (h : Balanced p (k + 1)) :
    Balanced (releaseLocked p) k := by
  unfold Balanced at h ⊢
  rw [releaseLocked_active, releaseLocked_idles, h, ← Nat.add_assoc]
  exact addUint64_complement _ 1 Nat.one_pos

/-- What a client's move from position `c` does, as the invariants need it: the configuration
stays; the units of `active` move between the idles and the client; every resource stays
where some place holds it, except the one the factory makes; and the units grow only by a
counter bump that passed the capacity check. -/
structure Move.Sound (p : ListState) (fresh : Nat) (c : Client) (m : Move) : Prop where
  conf : m.pool.conf = p.conf
  balanced : ∀ k, Balanced p (k + c.units) → Balanced m.pool (k + m.client.units)
  resources : ∀ r, (m.pool.idles.map Item.s).count r + m.client.resources.count r +
      m.shutdown.toList.count r =
    (p.idles.map Item.s).count r + c.resources.count r +
      (if m.created then [fresh] else []).count r
  units : m.pool.idles.length + m.client.units ≤ p.idles.length + c.units ∨
    (m.pool.idles.length + m.client.units = p.idles.length + c.units + 1 ∧
      (p.conf.active = 0 ∨ p.active < p.conf.active.toNat))

/-- A move that leaves the pool alone and keeps the client's unit. -/
theorem Move.sound_local {p : ListState} {fresh : Nat} {c c' : Client} {sd : Option Nat}
    (hu : c'.units = c.units)
    (hr : ∀ r, c'.resources.count r + sd.toList.count r = c.resources.count r) :
    Move.Sound p fresh c ⟨p, c', sd, false⟩ where
  conf := rfl
  balanced k h := h.of_eq rfl (by rw [hu])
  resources r := by
    have := hr r
    simp only [Bool.false_eq_true, if_false, List.count_nil]
    omega
  units := .inl (Nat.le_of_eq (by rw [hu]))

/-- A move that first releases the client's count under the lock. -/
theorem Move.Sound.of_release {p : ListState} {fresh : Nat} {c : Client} {m : Move}
    (h : m.Sound (releaseLocked p) fresh (.ready none)) (hu : c.units = 1)
    (hr : c.resources = []) : m.Sound p fresh c where
  conf := h.conf
  balanced k hb := h.balanced k (by rw [hu] at hb; exact hb.release)
  resources r := by
    have := h.resources r
    rw [hr]
    exact this
  units := by
    rcases h.units with hle | ⟨heq, -⟩
    · exact .inl (by rw [hu]; exact Nat.le_succ_of_le hle)
    · exact .inl (by rw [hu]; exact Nat.le_of_eq heq)

/-! ### `Get` under the lock -/

theorem afterIdles_cases (p : ListState) :
    ((p.conf.active = 0 ∨ p.active < p.conf.active.toNat) ∧
      afterIdles p = ⟨{ p with active := addUint64 p.active 1 }, .creating, none, false⟩) ∨
    ∃ c, c.counted = false ∧ c.resources = [] ∧ afterIdles p = ⟨p, c, none, false⟩ := by
  unfold afterIdles
  split
  · exact .inr ⟨_, rfl, rfl, rfl⟩
  · split
    · case isTrue hcap =>
      split
      · exact .inr ⟨_, rfl, rfl, rfl⟩
      · exact .inl ⟨hcap, rfl⟩
    · split
      · exact .inr ⟨_, rfl, rfl, rfl⟩
      · exact .inr ⟨_, rfl, rfl, rfl⟩

/-- `Get` under the lock pops the front idle, bumps the counter after the capacity check, or
leaves the pool as it is without a unit or a resource. -/
theorem getLocked_cases (p : ListState) (i n : Nat) :
    (∃ it rest, p.idles = it :: rest ∧
      getLocked p i n = ⟨{ p with idles := rest }, .checking i n it p.conf.idleTimeout, none, false⟩) ∨
    ((p.conf.active = 0 ∨ p.active < p.conf.active.toNat) ∧
      getLocked p i n = ⟨{ p with active := addUint64 p.active 1 }, .creating, none, false⟩) ∨
    ∃ c, c.counted = false ∧ c.resources = [] ∧ getLocked p i n = ⟨p, c, none, false⟩ := by
  unfold getLocked
  split
  · split
    · case h_1 it rest hidles => exact .inl ⟨it, rest, hidles, rfl⟩
    · exact .inr (afterIdles_cases p)
  · exact .inr (afterIdles_cases p)

theorem getLocked_sound {p : ListState} {fresh : Nat} {c : Client} (i n : Nat)
    (hu : c.units = 0) (hr : c.resources = []) : (getLocked p i n).Sound p fresh c := by
  rcases getLocked_cases p i n with ⟨it, rest, hidles, hm⟩ | ⟨hcap, hm⟩ | ⟨c', hc', hr', hm⟩ <;>
    rw [hm]
  · case inl =>
    refine ⟨rfl, fun k h => h.of_eq rfl ?_, fun r => ?_, .inl ?_⟩
    · rw [hidles, hu]
      simp only [Client.units, Client.counted, if_true, List.length_cons]
      omega
    · rw [hidles, hr]
      simp only [Client.resources, List.map_cons, List.count_cons, List.count_nil,
        Option.toList_none, Bool.false_eq_true, if_false]
      omega
    · rw [hidles, hu]
      simp only [Client.units, Client.counted, if_true, List.length_cons, Nat.le_refl]
  · case inr.inl =>
    refine ⟨rfl, fun k h => ?_, fun r => ?_, .inr ⟨?_, hcap⟩⟩
    · unfold Balanced at h ⊢
      rw [hu, Nat.add_zero] at h
      show addUint64 p.active 1 = _
      rw [h, addUint64_one]
      rfl
    · rw [hr]
      rfl
    · rw [hu]
      rfl
  · case inr.inr =>
    have hu' : c'.units = 0 := by simp only [Client.units, hc', Bool.false_eq_true, if_false]
    exact Move.sound_local (hu'.trans hu.symm) (fun r => by rw [hr, hr']; rfl)

/-! ### `Put` under the lock -/

/-- `Put` keeps the resource as the new front idle, keeps it and evicts the back idle, or, on
a closed pool or a forced close, releases its count and hands it back to be shut down. -/
theorem putLocked_cases (p : ListState) (s : Nat) (forceClose : Bool) (now : Int) :
    putLocked p s forceClose now = (notifyLocked { p with idles := ⟨now, s⟩ :: p.idles }, none) ∨
    (∃ kept last, ⟨now, s⟩ :: p.idles = kept ++ [last] ∧
      putLocked p s forceClose now = (releaseLocked { p with idles := kept }, some last.s)) ∨
    putLocked p s forceClose now = (releaseLocked p, some s) := by
  unfold putLocked
  split
  · dsimp only
    split
    · exact .inr (.inl ⟨_, _, (List.dropLast_append_getLast (List.cons_ne_nil _ _)).symm, rfl⟩)
    · exact .inl rfl
  · exact .inr (.inr rfl)

theorem putLocked_sound (p : ListState) (fresh s : Nat) (forceClose : Bool) (now : Int) :
    Move.Sound p fresh (.holding s)
      ⟨(putLocked p s forceClose now).1, afterPut (putLocked p s forceClose now).2, none, false⟩ := by
  rcases putLocked_cases p s forceClose now with h | ⟨kept, last, hsplit, h⟩ | h <;> rw [h] <;>
    refine ⟨rfl, fun k hb => ?_, fun r => ?_, .inl ?_⟩
  · case inl.refine_1 =>
    refine hb.of_eq rfl ?_
    simp only [notifyLocked_idles, List.length_cons, afterPut, Client.units, Client.counted,
      if_true, Bool.false_eq_true, if_false]
    omega
  · case inl.refine_2 =>
    simp only [notifyLocked_idles, afterPut, Client.resources, List.map_cons, List.count_cons,
      List.count_nil, Option.toList_none, Bool.false_eq_true, if_false]
    omega
  · case inl.refine_3 =>
    simp only [notifyLocked_idles, afterPut, Client.units, Client.counted, Bool.false_eq_true,
      if_false, if_true, List.length_cons, Nat.add_zero, Nat.le_refl]
  · case inr.inl.refine_1 =>
    have hlen := congrArg List.length hsplit
    rw [List.length_cons, List.length_append, List.length_singleton] at hlen
    unfold Balanced at hb ⊢
    simp only [releaseLocked_active, releaseLocked_idles, afterPut, Client.units, Client.counted,
      if_true, Bool.false_eq_true, if_false] at hb ⊢
    rw [hb, show p.idles.length + (k + 1) = (kept.length + (k + 0)) + 1 by omega]
    exact addUint64_complement _ 1 Nat.one_pos
  · case inr.inl.refine_2 =>
    have hres := congrArg (fun l => (l.map Item.s).count r) hsplit
    simp only [List.map_cons, List.map_append, List.map_nil, List.count_append,
      List.count_cons, List.count_nil] at hres
    simp only [releaseLocked_idles, afterPut, Client.resources, List.count_cons, List.count_nil,
      Option.toList_none, Bool.false_eq_true, if_false]
    omega
  · case inr.inl.refine_3 =>
    have hlen := congrArg List.length hsplit
    rw [List.length_cons, List.length_append, List.length_singleton] at hlen
    simp only [releaseLocked_idles, afterPut, Client.units, Client.counted, Bool.false_eq_true,
      if_false, if_true]
    omega
  · case inr.inr.refine_1 =>
    simp only [afterPut, Client.units, Client.counted, if_true, Bool.false_eq_true, if_false,
      Nat.add_zero] at hb ⊢
    exact hb.release
  · case inr.inr.refine_2 =>
    simp only [releaseLocked_idles, afterPut, Client.resources, List.count_cons, List.count_nil,
      Option.toList_none, Bool.false_eq_true, if_false]
  · case inr.inr.refine_3 =>
    simp only [releaseLocked_idles, afterPut, Client.units, Client.counted, Bool.false_eq_true,
      if_false, if_true]
    omega

/-! ### A client's step -/

/-- The factory's call keeps the client's unit and, when it succeeds, hands it the fresh
resource. -/
theorem factory_sound (p : ListState) (fresh : Nat) (ok : Bool) :
    Move.Sound p fresh .creating ⟨p, if ok then .holding fresh else .failed, none, ok⟩ := by
  cases ok with
  | false => exact Move.sound_local rfl (fun r => rfl)
  | true =>
    refine ⟨rfl, fun k h => h, fun r => ?_, .inl (Nat.le_refl _)⟩
    simp only [if_true, Client.resources, Option.toList_none, List.count_nil]
    omega

theorem clientStep_sound {p : ListState} {fresh : Nat} {c : Client} {a : ClientAction}
    {m : Move} (h : clientStep p fresh c a = some m) : m.Sound p fresh c := by
  cases c <;> cases a <;> simp only [clientStep, reduceCtorEq, Option.some.injEq] at h
  case ready.Get =>
    subst h
    split
    · exact Move.sound_local rfl (fun r => rfl)
    · exact getLocked_sound _ _ rfl rfl
  case checking.check i n it idleTimeout now =>
    subst h
    exact Move.sound_local (by split <;> rfl) (fun r => by split <;> rfl)
  case shutting.shutdownExpired i n r =>
    subst h
    exact Move.sound_local rfl (fun r => by simp)
  case releasing.release i n =>
    subst h
    exact (getLocked_sound _ _ rfl rfl).of_release rfl rfl
  case waiting.wake generation =>
    split at h
    · cases h
      exact getLocked_sound _ _ rfl rfl
    · cases h
  case waiting.cancel generation =>
    subst h
    exact Move.sound_local rfl (fun r => rfl)
  case creating.factory ok =>
    subst h
    exact factory_sound p fresh ok
  case failed.releaseFailed =>
    subst h
    refine Move.Sound.of_release ?_ rfl rfl
    exact Move.sound_local rfl (fun r => rfl)
  case holding.Put r forceClose now =>
    subst h
    exact putLocked_sound p fresh r forceClose now
  case putShutdown.shutdownPut r =>
    subst h
    exact Move.sound_local rfl (fun r => by simp)

/-! ### `cleanExpired` and `Shutdown` under the lock -/

/-- `cleanExpired` leaves the pool as it is, or detaches a nonempty run of idles from the
back and subtracts their number. -/
theorem cleanLocked_cases (p : ListState) (now : Int) :
    cleanLocked p now = (p, []) ∨
    ∃ kept removed : List Item, 0 < removed.length ∧ p.idles = kept ++ removed.reverse ∧
      cleanLocked p now = (notifyLocked { p with
        idles := kept
        active := addUint64 p.active (complement (removed.length - 1)) }, removed.map Item.s) := by
  unfold cleanLocked
  split
  · exact .inl rfl
  · dsimp only
    split
    · case isTrue hpos =>
      refine .inr ⟨_, _, hpos, ?_, rfl⟩
      rw [← List.reverse_append, List.takeWhile_append_dropWhile, List.reverse_reverse]
    · exact .inl rfl

theorem cleanLocked_balanced {p : ListState} {k : Nat} (now : Int) (h : Balanced p k) :
    Balanced (cleanLocked p now).1 k := by
  rcases cleanLocked_cases p now with hc | ⟨kept, removed, hpos, hidles, hc⟩ <;> rw [hc]
  · exact h
  · unfold Balanced at h ⊢
    simp only [notifyLocked_active, notifyLocked_idles]
    rw [h, hidles, List.length_append, List.length_reverse,
      show kept.length + removed.length + k = (kept.length + k) + removed.length by omega]
    exact addUint64_complement _ _ hpos

theorem cleanLocked_resources (p : ListState) (now : Int) (r : Nat) :
    ((cleanLocked p now).1.idles.map Item.s).count r + (cleanLocked p now).2.count r =
      (p.idles.map Item.s).count r := by
  rcases cleanLocked_cases p now with hc | ⟨kept, removed, -, hidles, hc⟩ <;> rw [hc]
  · rfl
  · simp only [notifyLocked_idles, hidles, List.map_append, List.map_reverse, List.count_append,
      List.count_reverse]

theorem cleanLocked_units (p : ListState) (now : Int) :
    (cleanLocked p now).1.conf = p.conf ∧ (cleanLocked p now).1.idles.length ≤ p.idles.length := by
  rcases cleanLocked_cases p now with hc | ⟨kept, removed, -, hidles, hc⟩ <;> rw [hc]
  · exact ⟨rfl, Nat.le_refl _⟩
  · refine ⟨rfl, ?_⟩
    simp only [notifyLocked_idles, hidles, List.length_append, List.length_reverse]
    omega

/-- A successful `Shutdown` empties the idles into the list it shuts down, and subtracts
their number. -/
theorem shutdownLocked_some {p : ListState} {r : ListState × List Nat}
    (h : shutdownLocked p = some r) :
    r.1.idles = [] ∧ r.1.conf = p.conf ∧ r.2 = p.idles.map Item.s ∧
      ∀ k, Balanced p k → Balanced r.1 k := by
  unfold shutdownLocked at h
  split at h
  · cases h
  · cases h
    refine ⟨rfl, rfl, rfl, fun k hb => ?_⟩
    unfold Balanced at hb ⊢
    simp only [notifyLocked_active, notifyLocked_idles, List.length_nil, Nat.zero_add,
      List.length_map]
    split
    · case isTrue hpos =>
      rw [hb, Nat.add_comm]
      exact addUint64_complement _ _ hpos
    · case isFalse hz =>
      rw [hb, show p.idles.length = 0 by omega, Nat.zero_add]

/-! ### The system's invariants -/

/-- The units `active` stands for: the idles, and every client whose position holds one. -/
def Sys.units (s : Sys) : Nat := s.pool.idles.length + s.clients.countP Client.counted

/-- Every place a resource can be: shut down, idle, at a client, or detached by the cleaner or
by a `Shutdown` call and not yet shut down. -/
def Sys.resources (s : Sys) : List Nat :=
  s.shut ++ s.pool.idles.map Item.s ++ s.clients.flatMap Client.resources ++ s.cleaner ++
    s.closers.flatten

/-- `active` counts the units, modulo `2^64`. -/
def Sys.Accounted (s : Sys) : Prop := s.pool.active = s.units % M64

/-- No resource is in two places or shut down twice, and the factory made each. -/
def Sys.Distinct (s : Sys) : Prop := s.resources.Nodup ∧ ∀ r ∈ s.resources, r < s.nextId

/-- `conf.active` is a bound, and the units stay within it. -/
def Sys.Capped (s : Sys) : Prop :=
  0 < s.pool.conf.active.toNat ∧ s.units ≤ s.pool.conf.active.toNat

/-- A step that does not lower `conf.active`; only `Reload` can. -/
def KeepsActive (s : Sys) : Action → Prop
  | .Reload options => s.pool.conf.active.toNat ≤ (applyOptions options s.pool.conf).active.toNat
  | _ => True

theorem units_le_countP {l : List Client} {t : Nat} {c : Client} (h : l[t]? = some c) :
    c.units ≤ l.countP Client.counted := by
  obtain ⟨hlt, hc⟩ := List.getElem?_eq_some_iff.mp h
  have hle := List.boole_getElem_le_countP (p := Client.counted) hlt
  rw [hc] at hle
  exact hle

theorem countP_set_units {l : List Client} {t : Nat} {c : Client} (x : Client)
    (h : l[t]? = some c) :
    (l.set t x).countP Client.counted + c.units = l.countP Client.counted + x.units := by
  obtain ⟨hlt, hc⟩ := List.getElem?_eq_some_iff.mp h
  have hle := List.boole_getElem_le_countP (p := Client.counted) hlt
  rw [List.countP_set hlt]
  rw [hc] at hle ⊢
  simp only [Client.units]
  omega

theorem count_flatMap_set {α β : Type} [BEq β] (f : α → List β) (b : β) (x : α) {l : List α}
    {t : Nat} {y : α} (h : l[t]? = some y) :
    ((l.set t x).flatMap f).count b + (f y).count b = (l.flatMap f).count b + (f x).count b := by
  induction l generalizing t with
  | nil => simp at h
  | cons z l ih =>
    cases t with
    | zero =>
      rw [List.getElem?_cons_zero, Option.some.injEq] at h
      subst h
      simp only [List.set_cons_zero, List.flatMap_cons, List.count_append]
      omega
    | succ t =>
      rw [List.getElem?_cons_succ] at h
      have := ih h
      simp only [List.set_cons_succ, List.flatMap_cons, List.count_append]
      omega

section Apply

variable {s : Sys} {t : Nat} {c : Client} {m : Move} (ht : s.clients[t]? = some c)
  (hm : m.Sound s.pool s.nextId c)
include ht hm

theorem Sys.apply_accounted (hs : s.Accounted) : (s.apply t m).Accounted := by
  have hset := countP_set_units m.client ht
  have hle := units_le_countP ht
  have hb : Balanced s.pool (s.clients.countP Client.counted - c.units + c.units) := by
    rw [Nat.sub_add_cancel (by omega)]
    exact hs
  have hb' := hm.balanced _ hb
  show m.pool.active = (m.pool.idles.length + (s.clients.set t m.client).countP Client.counted) % M64
  rw [show (s.clients.set t m.client).countP Client.counted =
    s.clients.countP Client.counted - c.units + m.client.units by omega]
  exact hb'

theorem Sys.apply_resources (r : Nat) :
    (s.apply t m).resources.count r =
      s.resources.count r + (if m.created then [s.nextId] else []).count r := by
  have hf := count_flatMap_set Client.resources r m.client ht
  have hr := hm.resources r
  simp only [Sys.resources, Sys.apply, List.count_append] at hf ⊢
  omega

theorem Sys.apply_capped (hs : s.Accounted) (hcap : s.Capped) : (s.apply t m).Capped := by
  have hset := countP_set_units m.client ht
  have hM : s.pool.conf.active.toNat < M64 := UInt64.toNat_lt _
  obtain ⟨hpos, hle⟩ := hcap
  unfold Sys.units at hle
  refine ⟨by rw [show (s.apply t m).pool.conf = s.pool.conf from hm.conf]; exact hpos, ?_⟩
  show m.pool.idles.length + (s.clients.set t m.client).countP Client.counted ≤
    m.pool.conf.active.toNat
  rw [hm.conf]
  rcases hm.units with hgrow | ⟨hgrow, hguard⟩
  · omega
  · -- the bump passed the capacity check, and `active` is the units exactly
    have hexact : s.pool.active = s.units := by
      rw [hs]
      exact Nat.mod_eq_of_lt (by unfold Sys.units; omega)
    unfold Sys.units at hexact
    rcases hguard with h0 | hlt
    · exact absurd (congrArg UInt64.toNat h0) (by rw [UInt64.toNat_zero]; omega)
    · omega

end Apply

/-! ### One step, then every run -/

theorem step_client_cases (s : Sys) (t : Nat) (a : ClientAction) :
    step s (.client t a) = s ∨ ∃ c m, s.clients[t]? = some c ∧
      clientStep s.pool s.nextId c a = some m ∧ step s (.client t a) = s.apply t m := by
  simp only [step]
  split
  · exact .inl rfl
  · case h_2 c hc =>
    split
    · exact .inl rfl
    · case h_2 m hm => exact .inr ⟨c, m, hc, hm, rfl⟩

theorem accounted_step (s : Sys) (a : Action) (hs : s.Accounted) : (step s a).Accounted := by
  cases a with
  | spawn =>
    show s.pool.active =
      (s.pool.idles.length + (s.clients ++ [Client.ready none]).countP Client.counted) % M64
    rw [List.countP_append, List.countP_singleton]
    exact hs
  | New present => exact hs
  | Reload options => exact hs
  | client t a =>
    rcases step_client_cases s t a with h | ⟨c, m, hc, hm, h⟩ <;> rw [h]
    · exact hs
    · exact Sys.apply_accounted hc (clientStep_sound hm) hs
  | cleanExpired now =>
    simp only [step]
    split
    · exact cleanLocked_balanced now hs
    · exact hs
  | cleanerShutdown =>
    simp only [step]
    split <;> exact hs
  | Shutdown =>
    simp only [step]
    split
    · case h_1 r hr => exact (shutdownLocked_some hr).2.2.2 _ hs
    · exact hs
  | closerShutdown j =>
    simp only [step]
    split <;> exact hs

theorem Sys.apply_nextId (s : Sys) (t : Nat) (m : Move) :
    (s.apply t m).nextId = s.nextId + if m.created then 1 else 0 := by
  rcases m with ⟨p, c, sd, _ | _⟩ <;> rfl

/-- Each step keeps every resource in some place, and may add the one the factory makes. -/
theorem resources_step (s : Sys) (a : Action) : ∃ created : Bool,
    (step s a).nextId = s.nextId + (if created then 1 else 0) ∧
    ∀ r, (step s a).resources.count r =
      s.resources.count r + (if created then [s.nextId] else []).count r := by
  cases a with
  | client t a =>
    rcases step_client_cases s t a with h | ⟨c, m, hc, hm, h⟩ <;> rw [h]
    · exact ⟨false, rfl, fun r => rfl⟩
    · exact ⟨m.created, Sys.apply_nextId s t m, Sys.apply_resources hc (clientStep_sound hm)⟩
  | spawn =>
    refine ⟨false, rfl, fun r => ?_⟩
    simp [step, Sys.resources]
  | New present => exact ⟨false, rfl, fun r => rfl⟩
  | Reload options => exact ⟨false, rfl, fun r => rfl⟩
  | cleanExpired now =>
    refine ⟨false, by simp only [step]; split <;> rfl, fun r => ?_⟩
    simp only [step]
    split
    · case isTrue hc =>
      have := cleanLocked_resources s.pool now r
      simp only [Sys.resources, hc, List.count_append, List.count_nil, Bool.false_eq_true,
        if_false] at this ⊢
      omega
    · rfl
  | cleanerShutdown =>
    refine ⟨false, by simp only [step]; split <;> rfl, fun r => ?_⟩
    simp only [step]
    split
    · case h_1 r' rest hc =>
      simp only [Sys.resources, hc, List.count_append, List.count_cons, List.count_nil,
        Bool.false_eq_true, if_false]
      omega
    · rfl
  | Shutdown =>
    refine ⟨false, by simp only [step]; split <;> rfl, fun r => ?_⟩
    simp only [step]
    split
    · case h_1 res hres =>
      obtain ⟨hidles, -, hout, -⟩ := shutdownLocked_some hres
      simp only [Sys.resources, hidles, hout, List.flatten_append, List.flatten_singleton,
        List.map_nil, List.count_append, List.count_nil, Bool.false_eq_true, if_false]
      omega
    · rfl
  | closerShutdown j =>
    refine ⟨false, by simp only [step]; split <;> rfl, fun r => ?_⟩
    simp only [step]
    split
    · case h_1 r' rest hj =>
      have hf := count_flatMap_set id r rest hj
      simp only [List.flatMap_id] at hf
      simp only [Sys.resources, List.count_append, List.count_cons, List.count_nil, id,
        Bool.false_eq_true, if_false] at hf ⊢
      omega
    · rfl

theorem distinct_step (s : Sys) (a : Action) (hs : s.Distinct) : (step s a).Distinct := by
  obtain ⟨created, hid, hcount⟩ := resources_step s a
  obtain ⟨hnd, hlt⟩ := hs
  have hfresh : s.resources.count s.nextId = 0 :=
    List.count_eq_zero.mpr fun h => Nat.lt_irrefl _ (hlt _ h)
  refine ⟨List.nodup_iff_count_le_one.mpr fun r => ?_, fun r hr => ?_⟩
  · have h1 := List.nodup_iff_count_le_one.mp hnd r
    rw [hcount r]
    cases created
    · simpa using h1
    · by_cases hr : r = s.nextId
      · subst hr
        simp [hfresh]
      · simpa [List.count_singleton, Ne.symm hr] using h1
  · have hpos := List.count_pos_iff.mpr hr
    rw [hcount r] at hpos
    rw [hid]
    cases created
    · simpa using hlt r (List.count_pos_iff.mp (by simpa using hpos))
    · by_cases h : r = s.nextId
      · simp only [if_true]
        omega
      · have hin : 0 < s.resources.count r := by
          simpa [List.count_singleton, Ne.symm h] using hpos
        have := hlt r (List.count_pos_iff.mp hin)
        simp only [if_true]
        omega

theorem capped_step (s : Sys) (a : Action) (ha : s.Accounted) (hc : s.Capped)
    (hk : KeepsActive s a) : (step s a).Capped := by
  cases a with
  | spawn =>
    refine ⟨hc.1, ?_⟩
    show s.pool.idles.length + (s.clients ++ [Client.ready none]).countP Client.counted ≤ _
    rw [List.countP_append, List.countP_singleton]
    exact hc.2
  | New present => exact hc
  | Reload options => exact ⟨Nat.lt_of_lt_of_le hc.1 hk, Nat.le_trans hc.2 hk⟩
  | client t a =>
    rcases step_client_cases s t a with h | ⟨c, m, hcl, hm, h⟩ <;> rw [h]
    · exact hc
    · exact Sys.apply_capped hcl (clientStep_sound hm) ha hc
  | cleanExpired now =>
    simp only [step]
    split
    · obtain ⟨hconf, hlen⟩ := cleanLocked_units s.pool now
      obtain ⟨hpos, hle⟩ := hc
      unfold Sys.units at hle
      refine ⟨by rw [hconf]; exact hpos, ?_⟩
      show (cleanLocked s.pool now).1.idles.length + s.clients.countP Client.counted ≤
        (cleanLocked s.pool now).1.conf.active.toNat
      rw [hconf]
      omega
    · exact hc
  | cleanerShutdown =>
    simp only [step]
    split <;> exact hc
  | Shutdown =>
    simp only [step]
    split
    · case h_1 r hr =>
      obtain ⟨hidles, hconf, -, -⟩ := shutdownLocked_some hr
      obtain ⟨hpos, hle⟩ := hc
      unfold Sys.units at hle
      refine ⟨by rw [hconf]; exact hpos, ?_⟩
      show r.1.idles.length + s.clients.countP Client.counted ≤ r.1.conf.active.toNat
      rw [hidles, hconf, List.length_nil]
      omega
    · exact hc
  | closerShutdown j =>
    simp only [step]
    split <;> exact hc

theorem newList_distinct (options : List ConfigOption) : (NewList options).Distinct := by
  refine ⟨?_, fun r hr => ?_⟩ <;> simp [Sys.resources, NewList] at *

theorem accounted_reachable {s : Sys} (h : PoolReachable s) : s.Accounted :=
  h.invariant (fun _ ⟨_, hs⟩ => hs ▸ rfl) accounted_step

theorem distinct_reachable {s : Sys} (h : PoolReachable s) : s.Distinct :=
  h.invariant (fun _ ⟨options, hs⟩ => hs ▸ newList_distinct options) distinct_step

theorem Sys.Distinct.shut_nodup {s : Sys} (h : s.Distinct) : s.shut.Nodup := by
  have hnd := h.1
  unfold Sys.resources at hnd
  exact hnd.of_append_left.of_append_left.of_append_left.of_append_left

/-- Below a bound under `2^64`, `active` is the units exactly. -/
theorem Sys.Accounted.exact {s : Sys} (ha : s.Accounted) (hc : s.Capped) :
    s.pool.active = s.units := by
  rw [ha]
  exact Nat.mod_eq_of_lt (Nat.lt_of_le_of_lt hc.2 (UInt64.toNat_lt _))

/-! ### Every run -/

theorem list_accounting {options : List ConfigOption} {as : List Action} {s : Sys}
    (hrun : Runs.run step (NewList options) as = s) :
    s.pool.active = s.units % M64 ∧ s.shut.Nodup ∧
      (0 < (applyOptions options defaultConfig).active.toNat →
        Runs.Steps step KeepsActive (NewList options) as →
        s.pool.active = s.units ∧ s.units ≤ s.pool.conf.active.toNat) := by
  have hreach : PoolReachable s := ⟨_, as, ⟨options, rfl⟩, hrun⟩
  refine ⟨accounted_reachable hreach, (distinct_reachable hreach).shut_nodup, fun hpos hq => ?_⟩
  subst hrun
  have h := Runs.steps_invariant (P := fun s => s.Accounted ∧ s.Capped)
    (fun s a h hk => ⟨accounted_step s a h.1, capped_step s a h.1 h.2 hk⟩) hq
    ⟨rfl, hpos, Nat.zero_le _⟩
  exact ⟨h.1.exact h.2, h.2.2⟩

/-- A client makes a resource, puts it back at the instant 0, gets it again and finds it
expired at 100 s under the default idle timeout, and shuts it down. -/
def expiredRun : List Action :=
  [.New true, .spawn, .client 0 .Get, .client 0 (.factory true), .client 0 (.Put false 0),
    .client 0 .Get, .client 0 (.check 100000000000), .client 0 .shutdownExpired]

theorem list_accounting_expiredRun :
    0 < (applyOptions [] defaultConfig).active.toNat ∧
      Runs.Steps step KeepsActive (NewList []) expiredRun ∧
      (Runs.run step (NewList []) expiredRun).pool.active =
        (Runs.run step (NewList []) expiredRun).units := by
  have hpos : 0 < (applyOptions [] defaultConfig).active.toNat := by decide
  have hq : Runs.Steps step KeepsActive (NewList []) expiredRun := by
    simp [expiredRun, KeepsActive]
  exact ⟨hpos, hq, ((list_accounting rfl).2.2 hpos hq).1⟩

/-- Between the `Shutdown` call on the expired idle and the re-lock that releases its count,
`active` is 1 while no resource is idle, held or being created, and the only resource has been
shut down. -/
theorem active_counts_shut_down_idle :
    (Runs.run step (NewList []) expiredRun).pool.active = 1 ∧
      (Runs.run step (NewList []) expiredRun).pool.idles = [] ∧
      (Runs.run step (NewList []) expiredRun).clients = [.releasing 0 1] ∧
      (Runs.run step (NewList []) expiredRun).shut = [0] := by
  decide

end Gkit.Pool
