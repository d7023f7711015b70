import Gkit.Queue.Reliable

/-!
Conservation for the reliable queue: no script loses or duplicates a payload. The payloads
the queue holds are the ready list and the payloads of the inflight envelopes; a push
brings one in and an acknowledgement that reports a first success takes one out, and on
every run the two sides balance as multisets.

The argument rests on an invariant of the six keys: every inflight token has a deadline
and back, no token is both inflight and acknowledged, no backlog token is acknowledged, and
every envelope is well formed. On such a state the claim script's repair loop has nothing
to repair, so its writes reduce to housekeeping on the outcomes and the repair keys,
followed by one lease.
-/

namespace Gkit.Queue

open Redis

/-! ### Decimal numerals and envelopes -/

/-- Lua's `tonumber` reads a decimal numeral as its value. -/
def ReadsDecimals (tonumber : Bytes → Option Int) : Prop :=
  ∀ s : String, isDecimal s = true → tonumber (ascii s) = some (Nat.ofDigitChars 10 s.toList 0 : Int)

/-- A well-formed envelope: a failure count of ten digits, `:`, and the payload. -/
def Framed (e : Bytes) : Prop :=
  ∃ n p, 0 ≤ n ∧ n ≤ 9999999999 ∧ e = format010d n ++ ascii ":" ++ p

theorem ascii_ofList (cs : List Char) : ascii (String.ofList cs) = cs.map Char.toUInt8 := by
  rw [ascii, String.toList_ofList]

theorem format010d_of_nonneg {n : Int} (h : 0 ≤ n) :
    format010d n = ascii (String.ofList
      (List.replicate (10 - (Nat.toDigits 10 n.natAbs).length) '0' ++ Nat.toDigits 10 n.natAbs)) := by
  have hsign : ¬ n < 0 := by omega
  rw [ascii_ofList, List.map_append, List.map_replicate]
  simp only [format010d, hsign, if_false, List.nil_append, List.length_nil, Nat.sub_zero]
  rw [Nat.toString_eq_ofList_toDigits, ascii_ofList, List.length_map]
  rfl

theorem format010d_length {n : Int} (h₀ : 0 ≤ n) (h₁ : n ≤ 9999999999) :
    (format010d n).length = 10 := by
  have hdigits : (Nat.toDigits 10 n.natAbs).length ≤ 10 :=
    (Nat.length_toDigits_le_iff (by decide) (by decide)).mpr (by omega)
  rw [format010d_of_nonneg h₀, ascii_ofList, List.length_map, List.length_append,
    List.length_replicate]
  omega

theorem isDecimal_ofList {cs : List Char} (hne : cs ≠ []) (hd : ∀ c ∈ cs, c.isDigit = true) :
    isDecimal (String.ofList cs) = true := by
  rw [isDecimal, String.toList_ofList, List.all_eq_true.mpr hd, List.isEmpty_eq_false_iff.mpr hne]
  rfl

theorem tonumber_format010d {tonumber : Bytes → Option Int} (htn : ReadsDecimals tonumber)
    {n : Int} (h₀ : 0 ≤ n) : tonumber (format010d n) = some n := by
  rw [format010d_of_nonneg h₀, htn _ ?decimal, String.toList_ofList, Nat.ofDigitChars_append,
    Nat.ofDigitChars_replicate_zero, Nat.mul_zero, Nat.ofDigitChars_ten_toDigits,
    Int.natAbs_of_nonneg h₀]
  case decimal =>
    apply isDecimal_ofList (List.append_ne_nil_of_right_ne_nil _ Nat.toDigits_ne_nil)
    intro c hc
    rcases List.mem_append.mp hc with hz | hd
    · rw [List.eq_of_mem_replicate hz]
      rfl
    · exact Nat.isDigit_of_mem_toDigits (by decide) (by decide) hd

theorem toNat_toUInt8_of_isDigit {c : Char} (h : c.isDigit = true) : c.toUInt8.toNat = c.toNat := by
  have hle : c.val.toNat ≤ 57 := by
    simp only [Char.isDigit, Bool.and_eq_true, decide_eq_true_eq] at h
    exact UInt32.le_iff_toNat_le.mp h.2
  rw [Char.toUInt8, UInt32.toNat_toUInt8, Char.toNat]
  omega

/-- A reading of decimal numerals, which is what the scripts ask of Lua's `tonumber`:
digits are read as their value, and anything else is not a number. -/
def decimalValue (b : Bytes) : Option Int :=
  if b ≠ [] ∧ b.all (fun u => 0x30 ≤ u && u ≤ 0x39) then
    some (b.foldl (fun n u => 10 * n + (u.toNat - 0x30)) 0 : Nat)
  else none

theorem decimalValue_readsDecimals : ReadsDecimals decimalValue := by
  intro s hs
  simp only [isDecimal, Bool.and_eq_true, Bool.not_eq_true', List.isEmpty_eq_false_iff,
    List.all_eq_true] at hs
  obtain ⟨hne,hdigits⟩ := hs
  have hbytes : (ascii s).all (fun u => 0x30 ≤ u && u ≤ 0x39) = true := by
    rw [ascii, List.all_map, List.all_eq_true]
    intro c hc
    have hn := toNat_toUInt8_of_isDigit (hdigits c hc)
    have hd := hdigits c hc
    simp only [Char.isDigit, Bool.and_eq_true, decide_eq_true_eq] at hd
    simp only [Function.comp_apply, Bool.and_eq_true, decide_eq_true_eq, UInt8.le_iff_toNat_le, hn]
    rw [Char.toNat]
    exact ⟨UInt32.le_iff_toNat_le.mp hd.1,UInt32.le_iff_toNat_le.mp hd.2⟩
  have hne' : ascii s ≠ [] := by
    rw [ascii]
    exact List.map_eq_nil_iff.not.mpr hne
  rw [decimalValue, if_pos ⟨hne',hbytes⟩, ascii, List.foldl_map, Nat.ofDigitChars_eq_foldl]
  congr 2
  exact List.foldl_ext _ _ 0 (fun n c hc => by rw [toNat_toUInt8_of_isDigit (hdigits c hc)]; rfl)

theorem take_framed {n : Int} (h₀ : 0 ≤ n) (h₁ : n ≤ 9999999999) (p : Bytes) :
    (format010d n ++ ascii ":" ++ p).take 10 = format010d n := by
  rw [List.append_assoc, List.take_left' (format010d_length h₀ h₁)]

theorem envelopePayload_framed {n : Int} (h₀ : 0 ≤ n) (h₁ : n ≤ 9999999999) (p : Bytes) :
    envelopePayload (format010d n ++ ascii ":" ++ p) = p := by
  have hlen : (format010d n ++ ascii ":").length = 11 := by
    rw [List.length_append, format010d_length h₀ h₁]
    rfl
  exact List.drop_left' hlen

theorem separator_framed {n : Int} (h₀ : 0 ≤ n) (h₁ : n ≤ 9999999999) (p : Bytes) :
    (format010d n ++ ascii ":" ++ p)[10]? = some 0x3A := by
  rw [List.append_assoc, List.getElem?_append_right (by rw [format010d_length h₀ h₁]),
    format010d_length h₀ h₁]
  rfl

theorem length_framed {n : Int} (h₀ : 0 ≤ n) (h₁ : n ≤ 9999999999) (p : Bytes) :
    11 ≤ (format010d n ++ ascii ":" ++ p).length := by
  simp only [List.length_append, format010d_length h₀ h₁]
  exact Nat.le_add_right _ _

theorem Framed.valid {tonumber : Bytes → Option Int} (htn : ReadsDecimals tonumber) {e : Bytes}
    (he : Framed e) : envelopeValid tonumber e = true := by
  obtain ⟨n,p,h₀,h₁,rfl⟩ := he
  rw [envelopeValid, take_framed h₀ h₁, separator_framed h₀ h₁, tonumber_format010d htn h₀,
    decide_eq_true (length_framed h₀ h₁ p)]
  rfl

theorem freshEnvelope_framed (p : Bytes) : Framed (freshEnvelope p) :=
  ⟨0,p,le_rfl,by decide,by rw [freshEnvelope, List.append_assoc]; rfl⟩

/-! ### The invariant -/

/-- The payloads the queue holds: the ready list, then the payload of every inflight
envelope. -/
def ReliableState.contents (s : ReliableState) : List Bytes :=
  s.ready ++ s.inflight.values.map envelopePayload

/-- The invariant of the six keys between two scripts. -/
structure ReliableState.Invariant (s : ReliableState) : Prop where
  /-- every envelope has a deadline, and every deadline an envelope -/
  leased : ∀ t, s.inflight.contains t = s.visibility.contains t
  /-- an acknowledged token holds no envelope -/
  unacked : ∀ t, s.inflight.contains t → s.outcomes.contains t = false
  /-- and is not waiting in the repair backlog -/
  backlogUnacked : ∀ t, s.repairBacklog.contains t → s.outcomes.contains t = false
  framed : ∀ t e, s.inflight.get? t = some e → Framed e

theorem ReliableState.Invariant.empty : ReliableState.empty.Invariant where
  leased _ := rfl
  unacked _ h := absurd h (by simp [ReliableState.empty, Assoc.contains])
  backlogUnacked _ h := absurd h (by simp [ReliableState.empty, Assoc.contains])
  framed _ _ h := absurd h (by simp [ReliableState.empty])

namespace ReliableState.Invariant

variable {s : ReliableState}

theorem visibility_of_get? (hI : s.Invariant) {t : String} {e : Bytes}
    (he : s.inflight.get? t = some e) : ∃ d, s.visibility.get? t = some d := by
  have hc : s.visibility.contains t = true := by
    rw [← hI.leased, Assoc.contains_eq, he]
    rfl
  rw [Assoc.contains_eq, Option.isSome_iff_exists] at hc
  exact hc

theorem visibility_of_get?_none (hI : s.Invariant) {t : String} (he : s.inflight.get? t = none) :
    s.visibility.get? t = none := by
  have hc : s.visibility.contains t = false := by
    rw [← hI.leased, Assoc.contains_eq, he]
    rfl
  rw [Assoc.contains_eq, Option.isSome_eq_false_iff, Option.isNone_iff_eq_none] at hc
  exact hc

theorem outcome_of_get? (hI : s.Invariant) {t : String} {e : Bytes}
    (he : s.inflight.get? t = some e) : s.outcomes.get? t = none := by
  have hc := hI.unacked t (by rw [Assoc.contains_eq, he]; rfl)
  rw [Assoc.contains_eq, Option.isSome_eq_false_iff, Option.isNone_iff_eq_none] at hc
  exact hc

theorem get?_of_visibility (hI : s.Invariant) {t : String} {d : Int}
    (hd : s.visibility.get? t = some d) : ∃ e, s.inflight.get? t = some e := by
  have hc : s.inflight.contains t = true := by
    rw [hI.leased, Assoc.contains_eq, hd]
    rfl
  rw [Assoc.contains_eq, Option.isSome_iff_exists] at hc
  exact hc

theorem withReady (hI : s.Invariant) (r : List Bytes) : ({ s with ready := r } : ReliableState).Invariant :=
  ⟨hI.leased,hI.unacked,hI.backlogUnacked,hI.framed⟩

/-- Leasing a well-formed envelope under a token that was never acknowledged. -/
theorem lease (hI : s.Invariant) {t : String} {e : Bytes} (hack : s.outcomes.contains t = false)
    (he : Framed e) (r : List Bytes) (d : Int) :
    ({ s with
      ready := r, inflight := s.inflight.insert t e,
      visibility := s.visibility.insert t d } : ReliableState).Invariant where
  leased x := by simp [hI.leased x]
  unacked x hx := by
    by_cases hxt : x = t
    · subst hxt
      exact hack
    · exact hI.unacked x (by simpa [hxt] using hx)
  backlogUnacked := hI.backlogUnacked
  framed x e' hx := by
    rw [Assoc.get?_insert] at hx
    split at hx
    · cases hx
      exact he
    · exact hI.framed x e' hx

/-- Retiring a token: its envelope and its deadline go, the backlog only shrinks, and the
outcomes change only at the token, which the new backlog does not keep. -/
theorem retire (hI : s.Invariant) (t : String) (r : List Bytes) {o b : ZSet String}
    (ho : ∀ x, o.contains x → x = t ∨ s.outcomes.contains x)
    (hb : ∀ x, b.contains x → s.repairBacklog.contains x) (hbt : o.contains t → b.contains t = false) :
    ({ s with
      ready := r, outcomes := o, inflight := s.inflight.erase t,
      visibility := s.visibility.erase t, repairBacklog := b } : ReliableState).Invariant where
  leased x := by simp [hI.leased x]
  unacked x hx := by
    simp only [Assoc.contains_erase, Bool.and_eq_true, decide_eq_true_eq] at hx
    cases hox : o.contains x with
    | false => rfl
    | true =>
      rcases ho x hox with rfl | hs
      · exact absurd rfl hx.1
      · rw [hI.unacked x hx.2] at hs
        cases hs
  backlogUnacked x hx := by
    cases hox : o.contains x with
    | false => rfl
    | true =>
      rcases ho x hox with rfl | hs
      · rw [hbt hox] at hx
        cases hx
      · rw [hI.backlogUnacked x (hb x hx)] at hs
        cases hs
  framed x e hx := by
    rw [Assoc.get?_erase] at hx
    split at hx
    · cases hx
    · exact hI.framed x e hx

end ReliableState.Invariant

/-! ### What each step brings in and takes out -/

/-- What a step brings in: the payload of a push. -/
def ReliableOp.enqueued : ReliableOp → List Bytes
  | .push p => [p]
  | _ => []

/-- The payload an ack retires, read off its reply: a first success `{1, 0, ...}` retires
the envelope of its token. -/
def retiredBy (s : ReliableState) (token : String) : ScriptReply → List Bytes
  | .ok (.int 1 :: .int 0 :: _) => ((s.inflight.get? token).map envelopePayload).toList
  | _ => []

/-- What a step takes out: the payload an ack reports as a first success. -/
def ReliableOp.acknowledged (s : ReliableState) : ReliableOp → List Bytes
  | .ack token retention ttl now => retiredBy s token (reliableAck s token retention ttl now).2
  | _ => []

/-- A step from `s` to `s'` balances when it keeps the invariant and turns what the queue
held, with what came in, into what it holds, with what went out. -/
def Balanced (s s' : ReliableState) (ins outs : List Bytes) : Prop :=
  s'.Invariant ∧ (s'.contents ++ outs).Perm (s.contents ++ ins)

section Scripts

variable {tonumber : Bytes → Option Int} {s : ReliableState}

theorem Balanced.refl (hI : s.Invariant) : Balanced s s [] [] := ⟨hI,.refl _⟩

theorem push_balanced (hI : s.Invariant) (p : Bytes) :
    Balanced s (reliableStep tonumber s (.push p)) [p] [] := by
  refine ⟨hI.withReady _,?_⟩
  simp only [reliableStep, ReliableState.contents, List.append_nil, List.append_assoc]
  exact List.perm_append_comm.append_left s.ready

theorem reliableRenew_balanced (hI : s.Invariant) (token : String) (lease now : Int) :
    Balanced s (reliableRenew s token lease now).1 [] [] := by
  generalize hr : reliableRenew s token lease now = res
  unfold reliableRenew at hr
  split at hr
  · subst hr
    exact .refl hI
  split at hr
  · rename_i e d he hd
    split at hr
    · subst hr
      exact .refl hI
    · subst hr
      refine ⟨⟨fun x => ?_,hI.unacked,hI.backlogUnacked,hI.framed⟩,.refl _⟩
      by_cases hx : x = token
      · subst hx
        simp [Assoc.contains_eq, he]
      · simp [hx, hI.leased x]
  · subst hr
    exact .refl hI

/-- A token acknowledged within the retention holds nothing, so the prior-outcome path of
the ack script writes nothing. -/
theorem ackShortcut_eq (hI : s.Invariant) {token : String} (hp : s.outcomes.contains token = true) :
    ({ s with
      visibility := s.visibility.erase token, inflight := s.inflight.erase token,
      repairBacklog := s.repairBacklog.erase token } : ReliableState) = s := by
  have hi : s.inflight.contains token = false := by
    cases hc : s.inflight.contains token with
    | false => rfl
    | true => rw [hI.unacked token hc] at hp; cases hp
  have hb : s.repairBacklog.contains token = false := by
    cases hc : s.repairBacklog.contains token with
    | false => rfl
    | true => rw [hI.backlogUnacked token hc] at hp; cases hp
  rw [Assoc.erase_of_contains hi, Assoc.erase_of_contains (hI.leased token ▸ hi),
    Assoc.erase_of_contains hb]

theorem reliableAckLease_balanced (hI : s.Invariant) (token : String) (retention now : Int) :
    Balanced s (reliableAckLease s token retention now).1 []
      (retiredBy s token (reliableAckLease s token retention now).2) := by
  generalize hr : reliableAckLease s token retention now = res
  unfold reliableAckLease at hr
  split at hr
  · rename_i e d he hd
    split at hr
    · subst hr
      exact .refl hI
    · subst hr
      refine ⟨hI.retire token s.ready (fun x hx => ?_) (fun x hx => ?_) (fun _ => by simp),?_⟩
      · by_cases hxt : x = token
        · exact .inl hxt
        · simp only [Assoc.contains_insert, Assoc.contains_eraseAll, hxt, decide_false,
            Bool.false_or, Bool.and_eq_true] at hx
          exact .inr hx.2
      · simp only [Assoc.contains_erase, Bool.and_eq_true] at hx
        exact hx.2
      · -- the envelope's payload leaves the queue as the acknowledged one
        have hp := (Assoc.values_erase_perm he).map envelopePayload
        simp only [retiredBy, he, Option.map_some, Option.toList_some, ReliableState.contents,
          List.append_nil, List.map_cons, List.append_assoc] at hp ⊢
        exact ((List.perm_append_singleton _ _).trans hp.symm).append_left s.ready
  · subst hr
    exact .refl hI

theorem reliableAck_balanced (hI : s.Invariant) (token : String) (retention ttl now : Int) :
    Balanced s (reliableStep tonumber s (.ack token retention ttl now)) []
      ((ReliableOp.ack token retention ttl now).acknowledged s) := by
  simp only [reliableStep, ReliableOp.acknowledged]
  generalize hr : reliableAck s token retention ttl now = res
  unfold reliableAck at hr
  split at hr
  · subst hr
    exact .refl hI
  split at hr
  · rename_i prior hp
    split at hr
    · -- a replay: nothing is written and nothing is retired a second time
      rw [ackShortcut_eq hI (by rw [Assoc.contains_eq, hp]; rfl)] at hr
      subst hr
      exact .refl hI
    · subst hr
      exact reliableAckLease_balanced hI token retention now
  · subst hr
    exact reliableAckLease_balanced hI token retention now

theorem reliableRelease_balanced (hI : s.Invariant) (token : String) (now : Int) :
    Balanced s (reliableStep tonumber s (.release token now)) [] [] := by
  simp only [reliableStep]
  generalize hr : reliableRelease tonumber s token now = res
  unfold reliableRelease at hr
  split at hr
  · subst hr
    exact .refl hI
  split at hr
  · rename_i e d he hd
    split at hr
    · subst hr
      exact .refl hI
    split at hr
    · subst hr
      exact .refl hI
    · subst hr
      refine ⟨hI.retire token _ (fun x hx => .inr hx) (fun x hx => ?_) (fun _ => by simp),?_⟩
      · simp only [Assoc.contains_erase, Bool.and_eq_true] at hx
        exact hx.2
      · -- the envelope's payload goes back to the end of the ready list
        have hp := (Assoc.values_erase_perm he).map envelopePayload
        simp only [ReliableState.contents, List.append_nil, List.map_cons, List.append_assoc,
          List.singleton_append] at hp ⊢
        exact (hp.append_left s.ready).symm
  · subst hr
    exact .refl hI

theorem reliableDefer_balanced (htn : ReadsDecimals tonumber) (hI : s.Invariant)
    (old new : String) (delay now : Int) :
    Balanced s (reliableStep tonumber s (.deferRetry old new delay now)) [] [] := by
  simp only [reliableStep]
  generalize hr : reliableDefer tonumber s old new delay now = res
  unfold reliableDefer at hr
  split at hr
  · subst hr
    exact .refl hI
  rename_i hargs
  split at hr
  · subst hr
    exact .refl hI
  rename_i hfresh
  have hnew : s.inflight.get? new = none := by
    rw [← Option.not_isSome_iff_eq_none, ← Assoc.contains_eq]
    exact fun h => hfresh (.inl h)
  have hack : s.outcomes.contains new = false := by
    cases h : s.outcomes.contains new with
    | false => rfl
    | true => exact absurd (.inr (.inr (.inl h))) hfresh
  split at hr
  · rename_i e d he hd
    split at hr
    · subst hr
      exact .refl hI
    split at hr
    · subst hr
      exact .refl hI
    split at hr
    · subst hr
      exact .refl hI
    · rename_i failure hf
      subst hr
      obtain ⟨n,p,h₀,h₁,rfl⟩ := hI.framed old _ he
      rw [take_framed h₀ h₁, tonumber_format010d htn h₀] at hf
      have hcount : n = failure := Option.some.inj hf
      subst hcount
      rw [envelopePayload_framed h₀ h₁]
      have hframed : Framed (format010d (if n < 9999999999 then n + 1 else n) ++ ascii ":" ++ p) :=
        ⟨_,p,by split <;> omega,by split <;> omega,rfl⟩
      refine ⟨(hI.lease hack hframed s.ready (now + delay)).retire old s.ready (fun x hx => .inr hx)
        (fun x hx => ?_) (fun _ => by simp),?_⟩
      · simp only [Assoc.contains_erase, Bool.and_eq_true] at hx
        exact hx.2
      · have hmoved := (Assoc.values_rename_perm he hnew
          (format010d (if n < 9999999999 then n + 1 else n) ++ ascii ":" ++ p)).map envelopePayload
        have hleft := (Assoc.values_erase_perm he).map envelopePayload
        rw [List.map_cons, envelopePayload_framed (by split <;> omega) (by split <;> omega)] at hmoved
        rw [List.map_cons, envelopePayload_framed h₀ h₁] at hleft
        simp only [ReliableState.contents, List.append_nil]
        exact (hmoved.trans hleft.symm).append_left s.ready
  · subst hr
    exact .refl hI

/-! ### The claim script -/

/-- On a state in the invariant no repair entry read from it asks for a write: an inflight
token has its deadline and no outcome, and any other token has neither an envelope nor a
deadline. -/
theorem repairOrphan_read (hI : s.Invariant) (now : Int) (acc : ReliableState × Bool) (t : String) :
    repairOrphan now acc (RepairEntry.read s t) = acc := by
  obtain ⟨s',b⟩ := acc
  cases he : s.inflight.get? t with
  | none => simp [repairOrphan, RepairEntry.read, he, hI.visibility_of_get?_none he]
  | some e =>
    obtain ⟨d,hd⟩ := hI.visibility_of_get? he
    simp [repairOrphan, RepairEntry.read, he, hd, hI.outcome_of_get? he]

/-- The claim script's housekeeping on a state in the invariant: the payloads and the leases
stay, the outcomes are only pruned, and the backlog keeps no acknowledged token. -/
structure Tidied (s h : ReliableState) : Prop where
  ready : h.ready = s.ready
  inflight : h.inflight = s.inflight
  visibility : h.visibility = s.visibility
  outcomes : ∀ t, h.outcomes.contains t → s.outcomes.contains t
  backlog : ∀ t, h.repairBacklog.contains t → h.outcomes.contains t = false

theorem Tidied.refl (hI : s.Invariant) : Tidied s s := ⟨rfl,rfl,rfl,fun _ h => h,hI.backlogUnacked⟩

theorem Tidied.invariant {h : ReliableState} (hI : s.Invariant) (ht : Tidied s h) : h.Invariant where
  leased t := by rw [ht.inflight, ht.visibility]; exact hI.leased t
  unacked t hc := by
    rw [ht.inflight] at hc
    cases ho : h.outcomes.contains t with
    | false => rfl
    | true =>
      have hs := ht.outcomes t ho
      rw [hI.unacked t hc] at hs
      cases hs
  backlogUnacked := ht.backlog
  framed t e he := hI.framed t e (ht.inflight ▸ he)

theorem Tidied.contents {h : ReliableState} (ht : Tidied s h) : h.contents = s.contents := by
  rw [ReliableState.contents, ReliableState.contents, ht.ready, ht.inflight]

/-- Pruning outcomes, moving the cursor, and replacing the backlog by one that keeps only
backlog or inflight tokens. -/
theorem tidied_prune (hI : s.Invariant) (expired : List String) (c : Option String) {b : ZSet String}
    (hb : ∀ t, b.contains t → s.repairBacklog.contains t ∨ s.inflight.contains t) :
    Tidied s { s with
      outcomes := s.outcomes.eraseAll expired, repairCursor := c, repairBacklog := b } where
  ready := rfl
  inflight := rfl
  visibility := rfl
  outcomes t ht := by
    rw [Assoc.contains_eraseAll, Bool.and_eq_true] at ht
    exact ht.2
  backlog t ht := by
    have hs : s.outcomes.contains t = false := (hb t ht).elim (hI.backlogUnacked t) (hI.unacked t)
    simp [hs]

/-- The housekeeping of the claim script, on a state in the invariant, with the overflow of
an `HSCAN` of the inflight hash and visible tokens of the deadline set: nothing to repair,
nothing dangling, so only the outcome pruning counts as reconciled. -/
theorem claimHousekeeping_tidied (hI : s.Invariant) (now : Int) (expired backlogTokens : List String)
    {overflow : List String} (hover : ∀ t ∈ overflow, s.inflight.contains t) (draining : Bool)
    (ts : List String) {visible : List String} (hvis : ∀ t ∈ visible, s.visibility.contains t)
    (nextCursor : String) :
    Tidied s (claimHousekeeping now s expired backlogTokens overflow draining
        (ts.map (RepairEntry.read s)) visible nextCursor).1 ∧
      (claimHousekeeping now s expired backlogTokens overflow draining
        (ts.map (RepairEntry.read s)) visible nextCursor).2 = !expired.isEmpty := by
  have hrepair : ∀ acc, (ts.map (RepairEntry.read s)).foldl (repairOrphan now) acc = acc :=
    fun acc => Runs.run_fixed (fun r hr => by
      obtain ⟨t,-,rfl⟩ := List.mem_map.mp hr
      exact repairOrphan_read hI now acc t)
  have hdangling : ∀ acc : ReliableState × Bool, acc.1.inflight = s.inflight →
      visible.foldl dropDangling acc = acc := fun acc hacc =>
    Runs.run_fixed (fun t ht => by
      obtain ⟨s',b⟩ := acc
      have hc : s'.inflight.contains t = true := by rw [hacc, hI.leased t]; exact hvis t ht
      simp [dropDangling, hc])
  unfold claimHousekeeping
  simp only [hrepair]
  rw [hdangling _ (by split <;> split <;> rfl)]
  cases draining
  · -- scanning: the overflow joins the backlog, and the cursor moves on
    cases hov : overflow.isEmpty
    all_goals simp only [Bool.false_eq_true, ite_false, ite_true, Bool.not_false,
      Bool.not_true, Bool.true_and, Bool.and_false, and_true]
    · refine tidied_prune hI expired _ (fun t ht => ?_)
      rw [ZSet.contains_addAllNX, List.map_map] at ht
      simp only [Function.comp_def, List.map_id', Bool.or_eq_true, decide_eq_true_eq] at ht
      exact ht.symm.imp_right (hover t)
    · exact tidied_prune hI expired _ (fun t ht => .inl ht)
  · -- draining: the drained tokens leave the backlog
    simp only [ite_true, Bool.not_true, Bool.false_and, Bool.false_eq_true, ite_false, and_true]
    refine tidied_prune hI expired _ (fun t ht => .inl ?_)
    rw [Assoc.contains_eraseAll, Bool.and_eq_true] at ht
    exact ht.2

/-- What the claim script does to a state in the invariant: housekeeping, then at most one
lease, which either passes an expired envelope to the new token or leases the head of the
ready list. The new token holds nothing and was never acknowledged. -/
inductive ClaimEffect (s : ReliableState) (token : String) (deadline : Int) : ReliableState → Prop
  | tidy {h : ReliableState} : Tidied s h → ClaimEffect s token deadline h
  | relet {h : ReliableState} {old : String} {e : Bytes} : Tidied s h →
      s.inflight.get? old = some e → s.inflight.contains token = false →
      s.outcomes.contains token = false →
      ClaimEffect s token deadline
        { h with
          inflight := (h.inflight.insert token e).erase old,
          visibility := (h.visibility.insert token deadline).erase old }
  | fresh {h : ReliableState} {p : Bytes} : Tidied s h → s.ready.head? = some p →
      s.inflight.contains token = false → s.outcomes.contains token = false →
      ClaimEffect s token deadline
        { h with
          inflight := h.inflight.insert token (freshEnvelope p),
          visibility := h.visibility.insert token deadline, ready := h.ready.tail }

/-- The lease of the claim script: the oldest expired deadline belongs to an inflight token
with no outcome, so its envelope passes to the new token; without one, the head of the
ready list is leased. -/
theorem claimLease_effect (hI : s.Invariant) {h : ReliableState} (ht : Tidied s h) {token : String}
    (hi : s.inflight.contains token = false) (ho : s.outcomes.contains token = false)
    (lease now : Int) :
    ClaimEffect s token (now + lease)
      (claimLease h token lease now ((s.visibility.rangeByScore now 1).head?.map (RepairEntry.read s))
        s.ready.head?).1 := by
  cases hd : (s.visibility.rangeByScore now 1).head? with
  | some old =>
    obtain ⟨d,hd',-⟩ := ZSet.mem_rangeByScore (List.mem_of_mem_head? hd)
    obtain ⟨e,he⟩ := hI.get?_of_visibility hd'
    simp only [claimLease, Option.map_some, RepairEntry.read, hI.outcome_of_get? he, Option.any_none,
      Bool.false_eq_true, ite_false, he]
    exact .relet ht he hi ho
  | none =>
    cases hp : s.ready.head? with
    | none => exact .tidy ht
    | some p => exact .fresh ht hp hi ho

theorem reliableClaim_effect (hI : s.Invariant) {fields : List String}
    (hadm : ∀ f ∈ fields, s.inflight.contains f) (token : String) (lease ttl now : Int)
    (cursor : String) :
    ClaimEffect s token (now + lease) (reliableClaim tonumber s token lease ttl now cursor fields).1 := by
  generalize hr : reliableClaim tonumber s token lease ttl now cursor fields = res
  unfold reliableClaim at hr
  split at hr
  · subst hr
    exact .tidy (.refl hI)
  split at hr
  · subst hr
    exact .tidy (.refl hI)
  rename_i hnew
  have hi : s.inflight.contains token = false := by
    cases h : s.inflight.contains token with
    | false => rfl
    | true => exact absurd (.inl h) hnew
  have ho : s.outcomes.contains token = false := by
    cases h : s.outcomes.contains token with
    | false => rfl
    | true => exact absurd (.inr (.inr (.inl h))) hnew
  extract_lets repairCursor expired backlogTokens draining nextCursor repairTokens overflow repair
    visible old at hr
  split at hr
  · subst hr
    exact .tidy (.refl hI)
  split at hr
  · subst hr
    exact .tidy (.refl hI)
  split at hr
  · subst hr
    exact .tidy (.refl hI)
  -- past every validation: the overflow comes from the hash scan, the visible tokens from the
  -- deadlines, and the repair entries are read before any write
  have hover : ∀ t ∈ overflow, s.inflight.contains t = true := by
    intro t ht
    simp only [overflow] at ht
    split at ht
    · cases ht
    · exact hadm t (List.mem_of_mem_drop ht)
  have hvis : ∀ t ∈ visible, s.visibility.contains t = true := fun t ht =>
    Assoc.contains_iff.mpr (ZSet.mem_range ht)
  have hk : Tidied s (claimHousekeeping now s expired backlogTokens overflow draining repair visible
        nextCursor).1 ∧
      (claimHousekeeping now s expired backlogTokens overflow draining repair visible
        nextCursor).2 = !expired.isEmpty :=
    claimHousekeeping_tidied hI now expired backlogTokens hover draining repairTokens hvis nextCursor
  generalize claimHousekeeping now s expired backlogTokens overflow draining repair visible
    nextCursor = k at hr hk
  obtain ⟨h,reconciled⟩ := k
  obtain ⟨ht,-⟩ := hk
  dsimp only at hr
  split at hr
  · subst hr
    exact .tidy ht
  · subst hr
    exact claimLease_effect hI ht hi ho lease now


theorem envelopePayload_freshEnvelope (p : Bytes) : envelopePayload (freshEnvelope p) = p :=
  List.drop_left' rfl

/-- The claim script balances on a state in the invariant: a relet moves one envelope to a
new token, a fresh lease moves the head of the ready list into the hash. -/
theorem ClaimEffect.balanced (hI : s.Invariant) {token : String} {deadline : Int}
    {s' : ReliableState} (hc : ClaimEffect s token deadline s') : Balanced s s' [] [] := by
  cases hc with
  | tidy ht => exact ⟨ht.invariant hI,by rw [ht.contents]⟩
  | @relet h old e ht he hi ho =>
    have hI' := ht.invariant hI
    rw [← ht.inflight] at he hi
    have hnone : h.inflight.get? token = none := by
      rw [← Option.not_isSome_iff_eq_none, ← Assoc.contains_eq, hi]
      decide
    have ho' : h.outcomes.contains token = false := by
      cases hc : h.outcomes.contains token with
      | false => rfl
      | true => rw [ht.outcomes token hc] at ho; cases ho
    have hold : h.outcomes.contains old = false :=
      hI'.unacked old (by rw [Assoc.contains_eq, he]; rfl)
    refine ⟨(hI'.lease ho' (hI'.framed old e he) h.ready deadline).retire old h.ready
      (fun x hx => .inr hx) (fun x hx => hx) (fun hc => absurd hc (by rw [hold]; decide)),?_⟩
    have hmoved := (Assoc.values_rename_perm he hnone e).map envelopePayload
    have hleft := (Assoc.values_erase_perm he).map envelopePayload
    rw [List.map_cons] at hmoved hleft
    rw [← ht.contents]
    simp only [ReliableState.contents, List.append_nil]
    exact (hmoved.trans hleft.symm).append_left h.ready
  | @fresh h p ht hp hi ho =>
    have hI' := ht.invariant hI
    rw [← ht.inflight] at hi
    rw [← ht.ready] at hp
    have hnone : h.inflight.get? token = none := by
      rw [← Option.not_isSome_iff_eq_none, ← Assoc.contains_eq, hi]
      decide
    have ho' : h.outcomes.contains token = false := by
      cases hc : h.outcomes.contains token with
      | false => rfl
      | true => rw [ht.outcomes token hc] at ho; cases ho
    refine ⟨hI'.lease ho' (freshEnvelope_framed p) h.ready.tail deadline,?_⟩
    obtain ⟨rest,hr⟩ := List.head?_eq_some_iff.mp hp
    rw [← ht.contents]
    simp only [ReliableState.contents, List.append_nil, hr, List.tail_cons,
      Assoc.values_insert_of_none hnone, List.map_append, List.map_cons, List.map_nil,
      envelopePayload_freshEnvelope]
    rw [← List.append_assoc]
    exact List.perm_append_singleton _ _

theorem reliableStep_balanced (htn : ReadsDecimals tonumber) (hI : s.Invariant) {op : ReliableOp}
    (hop : op.Admissible s) :
    Balanced s (reliableStep tonumber s op) op.enqueued (op.acknowledged s) := by
  cases op with
  | push p => exact push_balanced hI p
  | claim token lease ttl now cursor fields =>
    exact (reliableClaim_effect hI hop token lease ttl now cursor).balanced hI
  | renew token lease now => exact reliableRenew_balanced hI token lease now
  | ack token retention ttl now => exact reliableAck_balanced hI token retention ttl now
  | release token now => exact reliableRelease_balanced hI token now
  | deferRetry old new delay now => exact reliableDefer_balanced htn hI old new delay now

/-! ### Leases -/

/-- The token holds an unexpired lease: an envelope, and a deadline after now. -/
def ReliableState.holdsLease (s : ReliableState) (token : String) (now : Int) : Prop :=
  s.inflight.contains token = true ∧ (s.visibility.get? token).any (now < ·) = true

theorem holdsLease_of_get? {t : String} {e : Bytes} {d now : Int} (he : s.inflight.get? t = some e)
    (hd : s.visibility.get? t = some d) (hlt : ¬ d ≤ now) : s.holdsLease t now := by
  refine ⟨by rw [Assoc.contains_eq, he]; rfl,?_⟩
  rw [hd, Option.any_some, decide_eq_true_eq]
  omega

theorem reliableRenew_leased {token : String} {lease now : Int}
    (h : (reliableRenew s token lease now).2.code = some 1) : s.holdsLease token now := by
  unfold reliableRenew at h
  split at h
  · simp [ScriptReply.code] at h
  split at h
  · rename_i e d he hd
    split at h
    · simp [ScriptReply.code] at h
    · exact holdsLease_of_get? he hd (by assumption)
  · simp [ScriptReply.code] at h

theorem reliableAckLease_leased {token : String} {retention now : Int}
    (h : (reliableAckLease s token retention now).2.code = some 1) : s.holdsLease token now := by
  unfold reliableAckLease at h
  split at h
  · rename_i e d he hd
    split at h
    · simp [ScriptReply.code] at h
    · exact holdsLease_of_get? he hd (by assumption)
  · simp [ScriptReply.code] at h

/-- An ack succeeds for the lease holder, or replays a success within the retention, and
then writes nothing. -/
theorem reliableAck_leased (hI : s.Invariant) {token : String} {retention ttl now : Int}
    (h : (reliableAck s token retention ttl now).2.code = some 1) :
    s.holdsLease token now ∨
      ((s.outcomes.get? token).any (now < ·) = true ∧ (reliableAck s token retention ttl now).1 = s) := by
  generalize hr : reliableAck s token retention ttl now = res at h ⊢
  unfold reliableAck at hr
  split at hr
  · subst hr
    simp [ScriptReply.code] at h
  split at hr
  · rename_i prior hp
    split at hr
    · rename_i hlt
      rw [ackShortcut_eq hI (by rw [Assoc.contains_eq, hp]; rfl)] at hr
      subst hr
      exact .inr ⟨by rw [hp, Option.any_some, decide_eq_true_eq]; exact hlt,rfl⟩
    · subst hr
      exact .inl (reliableAckLease_leased h)
  · subst hr
    exact .inl (reliableAckLease_leased h)

theorem reliableRelease_leased {token : String} {now : Int}
    (h : (reliableRelease tonumber s token now).2.code = some 1) : s.holdsLease token now := by
  unfold reliableRelease at h
  split at h
  · simp [ScriptReply.code] at h
  split at h
  · rename_i e d he hd
    split at h
    · simp [ScriptReply.code] at h
    · rename_i hlt
      exact holdsLease_of_get? he hd hlt
  · simp [ScriptReply.code] at h

theorem reliableDefer_leased {old new : String} {delay now : Int}
    (h : (reliableDefer tonumber s old new delay now).2.code = some 1) : s.holdsLease old now := by
  unfold reliableDefer at h
  split at h
  · simp [ScriptReply.code] at h
  split at h
  · simp [ScriptReply.code] at h
  split at h
  · rename_i e d he hd
    split at h
    · simp [ScriptReply.code] at h
    · rename_i hlt
      exact holdsLease_of_get? he hd hlt
  · simp [ScriptReply.code] at h

/-- Renew, release, defer and ack succeed only for the token that holds the unexpired lease,
except an ack that replays a success within the retention, which writes nothing. -/
def LeasesFenced (tonumber : Bytes → Option Int) (s : ReliableState) : Prop :=
  (∀ token lease now, (reliableRenew s token lease now).2.code = some 1 → s.holdsLease token now) ∧
    (∀ token now, (reliableRelease tonumber s token now).2.code = some 1 →
      s.holdsLease token now) ∧
    (∀ old new delay now, (reliableDefer tonumber s old new delay now).2.code = some 1 →
      s.holdsLease old now) ∧
    (∀ token retention ttl now, (reliableAck s token retention ttl now).2.code = some 1 →
      s.holdsLease token now ∨
        ((s.outcomes.get? token).any (now < ·) = true ∧
          (reliableAck s token retention ttl now).1 = s))

theorem ReliableState.Invariant.leasesFenced (hI : s.Invariant) : LeasesFenced tonumber s :=
  ⟨fun _ _ _ h => reliableRenew_leased h,fun _ _ h => reliableRelease_leased h,
    fun _ _ _ _ h => reliableDefer_leased h,fun _ _ _ _ h => reliableAck_leased hI h⟩

end Scripts

/-! ### Runs -/

/-- The queue after a run of steps from the empty keys. -/
def reliableRun (tonumber : Bytes → Option Int) (ops : List ReliableOp) : ReliableState :=
  Runs.run (reliableStep tonumber) ReliableState.empty ops

/-- The payloads the acks of a run report as first successes. -/
def ackedPayloads (tonumber : Bytes → Option Int) (ops : List ReliableOp) : List Bytes :=
  Runs.trace (reliableStep tonumber) ReliableOp.acknowledged ReliableState.empty ops

/-- Every state that a run of allowed steps reaches is in the invariant, and holds the
payloads pushed so far less those acknowledged, each as often as it was pushed. -/
theorem reliableRun_balanced {tonumber : Bytes → Option Int} (htn : ReadsDecimals tonumber)
    {ops : List ReliableOp}
    (hadm : Runs.Steps (reliableStep tonumber) ReliableOp.Admissible ReliableState.empty ops) :
    (reliableRun tonumber ops).Invariant ∧
      ((reliableRun tonumber ops).contents ++ ackedPayloads tonumber ops).Perm
        (ops.flatMap ReliableOp.enqueued) := by
  have hstep : ∀ s op, s.Invariant → op.Admissible s →
      (reliableStep tonumber s op).Invariant ∧
        ((reliableStep tonumber s op).contents ++ op.acknowledged s).Perm (s.contents ++ op.enqueued) :=
    fun s op hI hop => reliableStep_balanced htn hI hop
  have h := Runs.steps_conserve (c := ReliableState.contents) hstep hadm ReliableState.Invariant.empty
  rw [Runs.trace_const] at h
  exact h

theorem reliable_queue_conservation {tonumber : Bytes → Option Int} (htn : ReadsDecimals tonumber)
    {ops : List ReliableOp}
    (hadm : Runs.Steps (reliableStep tonumber) ReliableOp.Admissible ReliableState.empty ops) :
    ((reliableRun tonumber ops).contents ++ ackedPayloads tonumber ops).Perm
        (ops.flatMap ReliableOp.enqueued) ∧
      (∀ t, (reliableRun tonumber ops).inflight.contains t =
        (reliableRun tonumber ops).visibility.contains t) ∧
      LeasesFenced tonumber (reliableRun tonumber ops) := by
  obtain ⟨hI,hbal⟩ := reliableRun_balanced htn hadm
  exact ⟨hbal,hI.leased,hI.leasesFenced⟩

/-- A push, a lease of the job and its acknowledgement, on a clock in milliseconds. -/
def ackedJob : List ReliableOp :=
  [.push (ascii "job"),.claim "lease-1" 30000 60000 1000 "0" [],.ack "lease-1" 5000 60000 2000]

theorem reliable_queue_conservation_ackedJob :
    ReadsDecimals decimalValue ∧
      Runs.Steps (reliableStep decimalValue) ReliableOp.Admissible ReliableState.empty ackedJob ∧
      (((reliableRun decimalValue ackedJob).contents ++ ackedPayloads decimalValue ackedJob).Perm
          (ackedJob.flatMap ReliableOp.enqueued) ∧
        (∀ t, (reliableRun decimalValue ackedJob).inflight.contains t =
          (reliableRun decimalValue ackedJob).visibility.contains t) ∧
        LeasesFenced decimalValue (reliableRun decimalValue ackedJob)) :=
  have hadm : Runs.Steps (reliableStep decimalValue) ReliableOp.Admissible ReliableState.empty
      ackedJob := by
    simp [ackedJob, ReliableOp.Admissible]
  ⟨decimalValue_readsDecimals,hadm,reliable_queue_conservation decimalValue_readsDecimals hadm⟩

/-- A payload acknowledged with a retention of 5 ms, then a claim after the retention, which
prunes the expired outcome. -/
def expiredAck : List ReliableOp :=
  [.push (ascii "p"),.claim "a" 10 100 0 "0" [],.ack "a" 5 100 1,.claim "b" 10 100 6 "0" []]

theorem acknowledged_payload_forgotten :
    expiredAck.flatMap ReliableOp.enqueued = [ascii "p"] ∧
      (reliableRun decimalValue expiredAck).ready = [] ∧
      (reliableRun decimalValue expiredAck).inflight = Assoc.empty ∧
      (reliableRun decimalValue expiredAck).outcomes = Assoc.empty := by
  decide

end Gkit.Queue
