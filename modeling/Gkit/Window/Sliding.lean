import Gkit.Library.Runs
import Mathlib

/-!
The sliding window of `window/window.go` and `window/init.go`: a ring of `size` maps from names to
scores, filled by a sentinel goroutine. `AddIndex` sends an index on a channel of `size` places;
the sentinel adds each index it receives into its current map and, at each tick of its ticker,
stores that map into the ring at `index`, starts a new one and moves `index` on. `Show` merges
the maps of the ring. The goroutines meet only at the channel and the lock, so a run is a
sequence of events: a send completing, a receive or a tick of the sentinel, `Shutdown`, and the
sentinel's return once the context is done. The ticker's interval only times the ticks. A map
is the list of its entries in the order their names were first written; Go's iteration order is
not fixed, so `Show`'s result is compared entry by entry.
-/

namespace Gkit.SlidingWindow

structure Index where
  Name : String
  Score : UInt64
deriving DecidableEq

/-- `m[name] += score` on a `map[string]uint`: a missing name reads as zero. -/
def addScore : List (String × UInt64) → String → UInt64 → List (String × UInt64)
  | [], name, score => [(name, score)]
  | (k, u) :: m, name, score =>
    if k = name then (k, u + score) :: m else (k, u) :: addScore m name score

/-- `conf`, without the context. -/
structure Conf where
  size : Nat
  interval : Int

def defaultWindowSize : Nat := 5

/-- `time.Second`, in nanoseconds. -/
def defaultWindowInterval : Int := 1000000000

def SetSize (size : Nat) (c : Conf) : Conf := { c with size := size }

def SetInterval (interval : Int) (c : Conf) : Conf := { c with interval := interval }

/-- `Window`: the configuration, the ring position, the close flag, the indexes waiting in the
channel, the sentinel's current map, the ring, and whether the sentinel has returned. -/
structure Window where
  conf : Conf
  index : Nat
  close : Bool
  communication : List Index
  m : List (String × UInt64)
  buffer : List (List (String × UInt64))
  sentinelDone : Bool

/-- `NewWindow`: the options over the defaults, a size of zero and an interval that is not
positive replaced by the defaults, and a ring of empty maps. -/
def NewWindow (options : List (Conf → Conf)) : Window :=
  let c := options.foldl (fun c o => o c) ⟨defaultWindowSize, defaultWindowInterval⟩
  let c := if c.size = 0 then { c with size := defaultWindowSize } else c
  let c := if c.interval ≤ 0 then { c with interval := defaultWindowInterval } else c
  ⟨c, 0, false, [], [], List.replicate c.size [], false⟩

/-- What happens to a window, one at a time. -/
inductive Event
  /-- A send of `AddIndex` completes. -/
  | addIndex (k : String) (v : UInt64)
  /-- The sentinel's `select` takes an index from the channel. -/
  | receive
  /-- The sentinel's `select` takes a tick. -/
  | tick
  | shutdown
  /-- The sentinel's `select` takes `ctx.Done()`, and the sentinel returns. -/
  | stop

/-- One event. A send waits while the channel is full, and none is made on a closed window;
`Shutdown` sets `close` and cancels the context, which lets the sentinel return. -/
def step (w : Window) : Event → Window
  | .addIndex k v =>
    if w.close ∨ w.conf.size ≤ w.communication.length then w
    else { w with communication := w.communication ++ [⟨k, v⟩] }
  | .receive =>
    if w.sentinelDone then w
    else
      match w.communication with
      | [] => w
      | info :: rest => { w with communication := rest, m := addScore w.m info.Name info.Score }
  | .tick =>
    if w.sentinelDone then w
    else
      { w with buffer := w.buffer.set w.index w.m, m := [],
               index := (w.index + 1) % w.conf.size }
  | .shutdown => { w with close := true }
  | .stop => if w.close then { w with sentinelDone := true } else w

/-- The inner loop of `Show`: `for s, u := range buf { m[s] += u }`. -/
def merge (acc buf : List (String × UInt64)) : List (String × UInt64) :=
  buf.foldl (fun acc e => addScore acc e.1 e.2) acc

/-- `Show`: the maps of the ring merged, as indexes. -/
def Show (w : Window) : List Index :=
  (w.buffer.foldl merge []).map fun e => ⟨e.1, e.2⟩

/-! ### What `Show` should report -/

/-- The abstract window: the indexes in the channel, and those the sentinel received, cut into
the intervals its ticks closed, oldest first, and the open one. -/
structure Spec where
  size : Nat
  close : Bool
  pending : List Index
  closed : List (List Index)
  current : List Index
  sentinelDone : Bool

def Spec.new (size : Nat) : Spec := ⟨size, false, [], [], [], false⟩

/-- The events on the abstract window: a tick closes the open interval. -/
def Spec.step (s : Spec) : Event → Spec
  | .addIndex k v =>
    if s.close ∨ s.size ≤ s.pending.length then s else { s with pending := s.pending ++ [⟨k, v⟩] }
  | .receive =>
    if s.sentinelDone then s
    else
      match s.pending with
      | [] => s
      | info :: rest => { s with pending := rest, current := s.current ++ [info] }
  | .tick => if s.sentinelDone then s else { s with closed := s.closed ++ [s.current], current := [] }
  | .shutdown => { s with close := true }
  | .stop => if s.close then { s with sentinelDone := true } else s

/-- The slots of the ring, oldest first: the empty maps a new window starts with, then the last
`size` closed intervals. -/
def Spec.slots (s : Spec) : List (List Index) :=
  List.replicate (s.size - s.closed.length) [] ++ s.closed.drop (s.closed.length - s.size)

/-- For a name, the total of the scores of the last `size` closed intervals, when it has any. -/
def Spec.show (s : Spec) (name : String) : Option UInt64 :=
  let l := s.slots.flatten.filter (·.Name = name)
  if l = [] then none else some (l.map (·.Score)).sum

/-! ### Maps by their entries -/

/-- The total of the entries of a name. -/
def entryTotal (name : String) (m : List (String × UInt64)) : UInt64 :=
  ((m.filter (·.1 = name)).map Prod.snd).sum

/-- Whether a map has an entry for a name. -/
def hasEntry (name : String) (m : List (String × UInt64)) : Bool := m.any (·.1 = name)

/-- The total of the scores of a name among indexes. -/
def indexTotal (name : String) (l : List Index) : UInt64 :=
  ((l.filter (·.Name = name)).map (·.Score)).sum

def indexHas (name : String) (l : List Index) : Bool := l.any (·.Name = name)

@[simp] theorem entryTotal_nil (name : String) : entryTotal name [] = 0 := rfl

@[simp] theorem hasEntry_nil (name : String) : hasEntry name [] = false := rfl

theorem entryTotal_cons (name k : String) (u : UInt64) (m : List (String × UInt64)) :
    entryTotal name ((k, u) :: m) = (if k = name then u else 0) + entryTotal name m := by
  by_cases h : k = name <;> simp [entryTotal, h]

theorem hasEntry_cons (name k : String) (u : UInt64) (m : List (String × UInt64)) :
    hasEntry name ((k, u) :: m) = (decide (k = name) || hasEntry name m) := rfl

theorem addScore_spec (m : List (String × UInt64)) (k : String) (v : UInt64) (name : String) :
    entryTotal name (addScore m k v) = entryTotal name m + (if k = name then v else 0) ∧
      hasEntry name (addScore m k v) = (hasEntry name m || decide (k = name)) := by
  induction m with
  | nil => simp [addScore, entryTotal_cons, hasEntry_cons]
  | cons e m ih =>
    obtain ⟨k', u⟩ := e
    by_cases hk : k' = k
    · -- the name's entry takes the score
      subst hk
      rw [addScore, if_pos rfl, entryTotal_cons, entryTotal_cons, hasEntry_cons, hasEntry_cons]
      by_cases hn : k' = name
      · simp only [hn, ↓reduceIte, decide_true, Bool.true_or]
        exact ⟨add_right_comm _ _ _, trivial⟩
      · simp [hn]
    · rw [addScore, if_neg hk, entryTotal_cons, entryTotal_cons, hasEntry_cons, hasEntry_cons,
        ih.1, ih.2]
      exact ⟨(add_assoc _ _ _).symm, (Bool.or_assoc _ _ _).symm⟩

theorem merge_spec (acc buf : List (String × UInt64)) (name : String) :
    entryTotal name (merge acc buf) = entryTotal name acc + entryTotal name buf ∧
      hasEntry name (merge acc buf) = (hasEntry name acc || hasEntry name buf) := by
  induction buf generalizing acc with
  | nil => simp [merge]
  | cons e buf ih =>
    obtain ⟨k, u⟩ := e
    have hmerge : merge acc ((k, u) :: buf) = merge (addScore acc k u) buf := rfl
    obtain ⟨ht, hh⟩ := addScore_spec acc k u name
    rw [hmerge, (ih _).1, (ih _).2, ht, hh, entryTotal_cons, hasEntry_cons]
    exact ⟨add_assoc _ _ _, Bool.or_assoc _ _ _⟩

/-- Merging maps one after another adds up their totals and their entries. -/
theorem foldl_merge_spec (maps : List (List (String × UInt64))) (acc : List (String × UInt64))
    (name : String) :
    entryTotal name (maps.foldl merge acc) =
        entryTotal name acc + (maps.map (entryTotal name)).sum ∧
      hasEntry name (maps.foldl merge acc) = (hasEntry name acc || maps.any (hasEntry name)) := by
  induction maps generalizing acc with
  | nil => simp
  | cons buf maps ih =>
    obtain ⟨ht, hh⟩ := merge_spec acc buf name
    rw [List.foldl_cons, (ih _).1, (ih _).2, ht, hh, List.map_cons, List.sum_cons, List.any_cons]
    exact ⟨add_assoc _ _ _, Bool.or_assoc _ _ _⟩

theorem mem_names_addScore {m : List (String × UInt64)} {k j : String} {v : UInt64}
    (hj : j ∈ (addScore m k v).map Prod.fst) : j ∈ m.map Prod.fst ∨ j = k := by
  induction m with
  | nil => simpa [addScore] using hj
  | cons e m ih =>
    obtain ⟨k', u⟩ := e
    by_cases hk : k' = k
    · simp only [addScore, if_pos hk, List.map_cons] at hj
      exact .inl (by simpa using hj)
    · simp only [addScore, if_neg hk, List.map_cons, List.mem_cons] at hj
      rcases hj with rfl | hj
      · simp
      · rcases ih hj with h | h
        · exact .inl (List.mem_cons_of_mem _ h)
        · exact .inr h

theorem nodup_addScore {m : List (String × UInt64)} (hm : (m.map Prod.fst).Nodup) (k : String)
    (v : UInt64) : ((addScore m k v).map Prod.fst).Nodup := by
  induction m with
  | nil => simp [addScore]
  | cons e m ih =>
    obtain ⟨k', u⟩ := e
    obtain ⟨hk', hm'⟩ := List.nodup_cons.mp hm
    by_cases hk : k' = k
    · simpa [addScore, hk] using hm
    · simp only [addScore, if_neg hk, List.map_cons, List.nodup_cons]
      refine ⟨fun hmem => ?_, ih hm'⟩
      rcases mem_names_addScore hmem with h | h
      · exact hk' h
      · exact hk h

theorem nodup_merge {acc : List (String × UInt64)} (hacc : (acc.map Prod.fst).Nodup)
    (buf : List (String × UInt64)) : ((merge acc buf).map Prod.fst).Nodup := by
  induction buf generalizing acc with
  | nil => exact hacc
  | cons e buf ih => exact ih (nodup_addScore hacc e.1 e.2)

/-- In a map that writes each name once, a name's entries are its one entry, with its total. -/
theorem filter_of_nodup {m : List (String × UInt64)} (hm : (m.map Prod.fst).Nodup)
    (name : String) :
    (m.filter (·.1 = name)).map Prod.snd =
      if hasEntry name m then [entryTotal name m] else [] := by
  induction m with
  | nil => rfl
  | cons e m ih =>
    obtain ⟨k, u⟩ := e
    obtain ⟨hk, hm'⟩ := List.nodup_cons.mp hm
    rw [entryTotal_cons, hasEntry_cons]
    by_cases hn : k = name
    · subst hn
      have hnone : m.filter (·.1 = k) = [] := List.filter_eq_nil_iff.mpr fun e he h => by
        simp only [decide_eq_true_eq] at h
        exact hk (List.mem_map.mpr ⟨e, he, h⟩)
      have htot : entryTotal k m = 0 := by simp [entryTotal, hnone]
      simp [hnone, htot]
    · simp [hn, ih hm']

/-! ### The refinement -/

/-- A map agrees with a list of indexes when it has the same totals and entries. -/
def Agrees (m : List (String × UInt64)) (l : List Index) : Prop :=
  ∀ name, entryTotal name m = indexTotal name l ∧ hasEntry name m = indexHas name l

theorem agrees_nil : Agrees [] [] := fun _ => ⟨rfl, rfl⟩

theorem Agrees.addScore {m : List (String × UInt64)} {l : List Index} (h : Agrees m l)
    (info : Index) : Agrees (SlidingWindow.addScore m info.Name info.Score) (l ++ [info]) := by
  intro name
  obtain ⟨ht, hh⟩ := addScore_spec m info.Name info.Score name
  obtain ⟨ht', hh'⟩ := h name
  refine ⟨?_, ?_⟩
  · rw [ht, ht']
    by_cases hn : info.Name = name <;> simp [indexTotal, List.filter_append, hn]
  · rw [hh, hh']
    simp [indexHas, List.any_append]

/-- The faithful window holds the abstract one: the same configuration, flags and channel, a
current map that agrees with the open interval, and a ring that, read from `index` on, agrees
slot by slot with the abstract slots. -/
structure Refines (w : Window) (s : Spec) : Prop where
  size_eq : w.conf.size = s.size
  size_pos : 0 < s.size
  close_eq : w.close = s.close
  pending_eq : w.communication = s.pending
  done_eq : w.sentinelDone = s.sentinelDone
  index_lt : w.index < s.size
  length_buffer : w.buffer.length = s.size
  current : Agrees w.m s.current
  ring : List.Forall₂ Agrees (w.buffer.rotate w.index) s.slots

theorem newWindow_size_pos (options : List (Conf → Conf)) : 0 < (NewWindow options).conf.size := by
  unfold NewWindow
  dsimp only
  generalize options.foldl (fun c o => o c) ⟨defaultWindowSize, defaultWindowInterval⟩ = c
  by_cases h0 : c.size = 0
  · rw [if_pos h0]
    split_ifs <;> simp [defaultWindowSize]
  · rw [if_neg h0]
    split_ifs
    · exact Nat.pos_of_ne_zero h0
    · exact Nat.pos_of_ne_zero h0

theorem refines_new (options : List (Conf → Conf)) :
    Refines (NewWindow options) (Spec.new (NewWindow options).conf.size) := by
  have hpos := newWindow_size_pos options
  refine ⟨rfl, hpos, rfl, rfl, rfl, hpos, List.length_replicate .., agrees_nil, ?_⟩
  have hslots : (Spec.new (NewWindow options).conf.size).slots =
      List.replicate (NewWindow options).conf.size [] := by
    simp [Spec.slots, Spec.new]
  rw [hslots]
  show List.Forall₂ Agrees ((List.replicate (NewWindow options).conf.size []).rotate 0) _
  rw [List.rotate_zero]
  exact List.forall₂_iff_get.mpr ⟨by simp, fun i _ _ => by simpa using agrees_nil⟩

/-- Storing `x` at `i` and reading from `i + 1` on drops the first of the slots read from `i` on
and adds `x` last. -/
theorem rotate_set_succ {β : Type} (l : List β) {i : Nat} (hi : i < l.length) (x : β) :
    (l.set i x).rotate (i + 1) = (l.rotate i).tail ++ [x] := by
  obtain ⟨A, y, B, rfl, rfl⟩ : ∃ A y B, l = A ++ y :: B ∧ A.length = i :=
    ⟨l.take i, l[i], l.drop (i + 1), by rw [List.cons_getElem_drop_succ, List.take_append_drop],
      by simp; omega⟩
  have hset : (A ++ y :: B).set A.length x = (A ++ [x]) ++ B := by simp
  have hlen : A.length + 1 = (A ++ [x]).length := by simp
  rw [hset, hlen, List.rotate_append_length_eq, List.rotate_append_length_eq]
  simp

theorem Spec.slots_tick (s : Spec) (hpos : 0 < s.size) :
    ({ s with closed := s.closed ++ [s.current], current := [] } : Spec).slots =
      s.slots.tail ++ [s.current] := by
  simp only [Spec.slots, List.length_append, List.length_singleton]
  by_cases hlt : s.closed.length < s.size
  · -- one of the empty maps of the new window goes
    obtain ⟨k, hk⟩ : ∃ k, s.size - s.closed.length = k + 1 := ⟨_, (Nat.succ_pred_eq_of_pos
      (by omega)).symm⟩
    rw [hk, show s.size - (s.closed.length + 1) = k by omega,
      show s.closed.length + 1 - s.size = 0 by omega, show s.closed.length - s.size = 0 by omega,
      List.replicate_succ, List.drop_zero, List.drop_zero]
    simp
  · -- the oldest closed interval goes
    rw [show s.size - (s.closed.length + 1) = 0 by omega, show s.size - s.closed.length = 0 by omega,
      List.replicate_zero, List.nil_append, List.nil_append,
      List.drop_append_of_le_length (by omega), ← List.drop_one, List.drop_drop,
      show s.closed.length + 1 - s.size = s.closed.length - s.size + 1 by omega]

/-- Every event keeps the refinement: the two windows take the same branch of each event, and
a tick moves both rings on by one slot. -/
theorem Refines.step {w : Window} {s : Spec} (h : Refines w s) (e : Event) :
    Refines (SlidingWindow.step w e) (s.step e) := by
  cases e with
  | addIndex k v =>
    by_cases hgo : s.close = true ∨ s.size ≤ s.pending.length
    · have hw : w.close = true ∨ w.conf.size ≤ w.communication.length := by
        rwa [h.close_eq, h.size_eq, h.pending_eq]
      simp only [SlidingWindow.step, Spec.step, if_pos hw, if_pos hgo]
      exact h
    · have hw : ¬ (w.close = true ∨ w.conf.size ≤ w.communication.length) := by
        rwa [h.close_eq, h.size_eq, h.pending_eq]
      simp only [SlidingWindow.step, Spec.step, if_neg hw, if_neg hgo]
      exact { h with pending_eq := by rw [h.pending_eq] }
  | receive =>
    by_cases hd : s.sentinelDone = true
    · have hw : w.sentinelDone = true := by rw [h.done_eq]; exact hd
      simp only [SlidingWindow.step, Spec.step, if_pos hw, if_pos hd]
      exact h
    · have hw : ¬ w.sentinelDone = true := by rw [h.done_eq]; exact hd
      simp only [SlidingWindow.step, Spec.step, if_neg hw, if_neg hd, h.pending_eq]
      cases s.pending with
      | nil => exact h
      | cons info rest =>
        exact { h with pending_eq := rfl, current := h.current.addScore info }
  | tick =>
    by_cases hd : s.sentinelDone = true
    · have hw : w.sentinelDone = true := by rw [h.done_eq]; exact hd
      simp only [SlidingWindow.step, Spec.step, if_pos hw, if_pos hd]
      exact h
    · have hw : ¬ w.sentinelDone = true := by rw [h.done_eq]; exact hd
      simp only [SlidingWindow.step, Spec.step, if_neg hw, if_neg hd]
      have hi : w.index < w.buffer.length := by rw [h.length_buffer]; exact h.index_lt
      have hlen : (w.buffer.set w.index w.m).length = w.conf.size := by
        rw [List.length_set, h.length_buffer, h.size_eq]
      refine { h with
        index_lt := by rw [← h.size_eq]; exact Nat.mod_lt _ (h.size_eq ▸ h.size_pos)
        length_buffer := by rw [List.length_set, h.length_buffer]
        current := agrees_nil
        ring := ?_ }
      show List.Forall₂ Agrees ((w.buffer.set w.index w.m).rotate ((w.index + 1) % w.conf.size))
        ({ s with closed := s.closed ++ [s.current], current := [] } : Spec).slots
      rw [← hlen, List.rotate_mod, rotate_set_succ _ hi, Spec.slots_tick s h.size_pos]
      exact List.rel_append (by simpa only [← List.drop_one] using List.forall₂_drop 1 h.ring)
        (List.Forall₂.cons h.current List.Forall₂.nil)
  | shutdown =>
    exact { h with close_eq := rfl }
  | stop =>
    by_cases hc : s.close = true
    · have hw : w.close = true := by rw [h.close_eq]; exact hc
      simp only [SlidingWindow.step, Spec.step, if_pos hw, if_pos hc]
      exact { h with done_eq := rfl }
    · have hw : ¬ w.close = true := by rw [h.close_eq]; exact hc
      simp only [SlidingWindow.step, Spec.step, if_neg hw, if_neg hc]
      exact h

/-! ### What `Show` reports -/

theorem nodup_foldl_merge (maps : List (List (String × UInt64))) {acc : List (String × UInt64)}
    (hacc : (acc.map Prod.fst).Nodup) : ((maps.foldl merge acc).map Prod.fst).Nodup := by
  induction maps generalizing acc with
  | nil => exact hacc
  | cons buf maps ih => exact ih (nodup_merge hacc buf)

/-- Maps that agree with lists of indexes slot by slot have their totals and entries. -/
theorem agrees_sum_any {maps : List (List (String × UInt64))} {slots : List (List Index)}
    (h : List.Forall₂ Agrees maps slots) (name : String) :
    (maps.map (entryTotal name)).sum = (slots.map (indexTotal name)).sum ∧
      maps.any (hasEntry name) = slots.any (indexHas name) := by
  induction h with
  | nil => exact ⟨rfl, rfl⟩
  | cons hab _ ih =>
    obtain ⟨ht, hh⟩ := hab name
    rw [List.map_cons, List.map_cons, List.sum_cons, List.sum_cons, List.any_cons, List.any_cons,
      ht, hh, ih.1, ih.2]
    exact ⟨rfl, rfl⟩

theorem indexTotal_flatten (name : String) (L : List (List Index)) :
    indexTotal name L.flatten = (L.map (indexTotal name)).sum := by
  rw [indexTotal, List.filter_flatten, List.map_flatten, List.sum_flatten, List.map_map,
    List.map_map]
  rfl

theorem indexHas_flatten (name : String) (L : List (List Index)) :
    indexHas name L.flatten = L.any (indexHas name) := by
  rw [indexHas, List.any_flatten]
  rfl

theorem Spec.show_toList (s : Spec) (name : String) :
    (s.show name).toList =
      if indexHas name s.slots.flatten then [indexTotal name s.slots.flatten] else [] := by
  unfold Spec.show
  by_cases hl : s.slots.flatten.filter (·.Name = name) = []
  · have hno : indexHas name s.slots.flatten = false := by
      rw [indexHas, List.any_eq_false]
      intro x hx hxn
      exact List.filter_eq_nil_iff.mp hl x hx hxn
    simp only [hl, ↓reduceIte, hno, Bool.false_eq_true, Option.toList_none]
  · have hyes : indexHas name s.slots.flatten = true := by
      rw [indexHas, List.any_eq_true]
      obtain ⟨x, hx⟩ := List.exists_mem_of_ne_nil _ hl
      exact ⟨x, (List.mem_filter.mp hx).1, (List.mem_filter.mp hx).2⟩
    simp only [hl, ↓reduceIte, hyes, Option.toList_some, indexTotal]

theorem Refines.show_eq {w : Window} {s : Spec} (h : Refines w s) (name : String) :
    ((Show w).filter (·.Name = name)).map (·.Score) = (s.show name).toList := by
  have hnodup : ((w.buffer.foldl merge []).map Prod.fst).Nodup :=
    nodup_foldl_merge w.buffer List.nodup_nil
  have hentries : ((Show w).filter (·.Name = name)).map (·.Score) =
      ((w.buffer.foldl merge []).filter (·.1 = name)).map Prod.snd := by
    simp [Show, List.filter_map, Function.comp_def]
  obtain ⟨ht, hh⟩ := foldl_merge_spec w.buffer [] name
  have hperm := List.rotate_perm w.buffer w.index
  obtain ⟨ht', hh'⟩ := agrees_sum_any h.ring name
  rw [hentries, filter_of_nodup hnodup, ht, hh, Spec.show_toList, indexTotal_flatten,
    indexHas_flatten, ← ht', ← hh', (hperm.map _).sum_eq, hperm.any_eq]
  simp

/-- `Show` reports the last `size` intervals. Over every run of a window, with sends, receives,
ticks and `Shutdown` in any order, `Show` lists each name at most once; it lists a name exactly
when the sentinel received an index of it in one of the last `size` intervals its ticks closed,
and then with the total, wrapping as a `uint`, of the scores it received for the name in them.
The interval still open is not reported, nor an older one. -/
theorem show_reports_last_intervals (options : List (Conf → Conf)) (events : List Event)
    (name : String) :
    ((Show (Runs.run SlidingWindow.step (NewWindow options) events)).filter (·.Name = name)).map
        (·.Score) =
      ((Runs.run Spec.step (Spec.new (NewWindow options).conf.size) events).show name).toList :=
  (Runs.run_simulates (R := Refines) (fun _ _ e h => h.step e) events
    (refines_new options)).show_eq name

/-- A window of two maps: `a` scores 1 and then 2 in two intervals and `b` 5 in a third; `Show`
reports the last two. -/
example : (Show (Runs.run SlidingWindow.step (NewWindow [SetSize 2])
    [.addIndex "a" 1, .receive, .tick, .addIndex "a" 2, .receive, .tick, .addIndex "b" 5,
      .receive, .tick])).map (fun i => (i.Name, i.Score)) = [("b", 5), ("a", 2)] := by
  decide +kernel

end Gkit.SlidingWindow
