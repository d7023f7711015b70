import Gkit.Chord.Steps

/-!
Member receipts. `ApplyChordMemberTerminal` writes a member's receipt once; a later call
for a member that holds one compares the JSON encoding of the stored receipt with that of
a candidate built from the round-tripped results, and writes nothing. The comparison is
on encodings: results that differ as Go values but encode alike pass as a repeat, and
results that fail to encode give the encoding error rather than a conflict.
-/

namespace Gkit.Chord

variable {V Sig : Type}

/-- A member holds a receipt exactly when it is MEMBER_TERMINAL. -/
def ReceiptsMatch (d : ChordDelivery V) : Prop :=
  ∀ m ∈ d.members, m.receipt.isSome = true ↔ m.state = .terminal

/-- Every member of `d'` keeps the task id, and any receipt, of the member at its position
in `d`. -/
def ReceiptsKept (d d' : ChordDelivery V) : Prop :=
  ∀ (i : Nat) (m : ChordMemberPublication V), d.members[i]? = some m →
    ∃ m', d'.members[i]? = some m' ∧ m'.taskID = m.taskID ∧
      ∀ r, m.receipt = some r → m'.receipt = some r

theorem ReceiptsKept.refl (d : ChordDelivery V) : ReceiptsKept d d :=
  fun _ m hm => ⟨m,hm,rfl,fun _ h => h⟩

theorem ReceiptsKept.trans {d₁ d₂ d₃ : ChordDelivery V} (h₁ : ReceiptsKept d₁ d₂)
    (h₂ : ReceiptsKept d₂ d₃) : ReceiptsKept d₁ d₃ := by
  intro i m hm
  obtain ⟨m₂,hm₂,ht₂,hr₂⟩ := h₁ i m hm
  obtain ⟨m₃,hm₃,ht₃,hr₃⟩ := h₂ i m₂ hm₂
  exact ⟨m₃,hm₃,ht₃.trans ht₂,fun r hr => hr₃ r (hr₂ r hr)⟩

theorem ReceiptsMatch.receipt_none {d : ChordDelivery V} (h : ReceiptsMatch d) {i : Nat}
    {m : ChordMemberPublication V} (hm : d.members[i]? = some m) (hs : m.state ≠ .terminal) :
    m.receipt = none := by
  cases hr : m.receipt with
  | none => rfl
  | some r => exact absurd ((h m (List.mem_of_getElem? hm)).mp (by simp [hr])) hs

/-- Replacing one member by a record that satisfies the correspondence keeps it. -/
theorem receiptsMatch_set {ms : List (ChordMemberPublication V)}
    (h : ∀ m ∈ ms, m.receipt.isSome = true ↔ m.state = .terminal) (i : Nat)
    {x : ChordMemberPublication V} (hx : x.receipt.isSome = true ↔ x.state = .terminal) :
    ∀ m ∈ ms.set i x, m.receipt.isSome = true ↔ m.state = .terminal := by
  intro m hm
  rcases List.mem_or_eq_of_mem_set hm with hm | rfl
  · exact h m hm
  · exact hx

/-- Replacing one member by a record with its task id and receipt. -/
theorem receiptsKept_set {d d' : ChordDelivery V} {i : Nat} {m x : ChordMemberPublication V}
    (hm : d.members[i]? = some m) (h : d'.members = d.members.set i x)
    (ht : x.taskID = m.taskID) (hr : ∀ r, m.receipt = some r → x.receipt = some r) :
    ReceiptsKept d d' := by
  intro j y hy
  rw [h]
  by_cases hj : j = i
  · subst hj
    rw [hm] at hy
    cases hy
    have hi : j < d.members.length := (List.getElem?_eq_some_iff.mp hm).1
    exact ⟨x,List.getElem?_set_self hi,ht,hr⟩
  · refine ⟨y,?_,rfl,fun _ h => h⟩
    rw [List.getElem?_set_ne (Ne.symm hj), hy]

theorem receiptsKept_of_members {d d' : ChordDelivery V} (h : d'.members = d.members) :
    ReceiptsKept d d' := by
  intro i m hm
  exact ⟨m,by rw [h]; exact hm,rfl,fun _ h => h⟩

theorem recordReceipt_receiptsMatch {d : ChordDelivery V} (hM : ReceiptsMatch d) (i : Nat)
    (m : ChordMemberPublication V) (r : ChordMemberReceipt V) (now : Time) :
    ReceiptsMatch (recordReceipt d i m r now) := by
  unfold ReceiptsMatch
  rw [recordReceipt_members]
  exact receiptsMatch_set hM i (by simp)

theorem recordReceipt_receiptsKept {d : ChordDelivery V} {i : Nat} {m : ChordMemberPublication V}
    (hm : d.members[i]? = some m) (hr : m.receipt = none) (r : ChordMemberReceipt V) (now : Time) :
    ReceiptsKept d (recordReceipt d i m r now) :=
  receiptsKept_set hm (recordReceipt_members ..) rfl (fun r h => by simp [hr] at h)

section
variable {codec : TaskCodec V Sig}

theorem receiptsMatch_move {d d' : ChordDelivery V} (hM : ReceiptsMatch d)
    (h : ChordMove codec d d') : ReceiptsMatch d' := by
  cases h with
  | prepare now =>
    intro x hx
    rw [prepareChordMembers_members] at hx
    obtain ⟨m,hm,rfl⟩ := List.mem_map.mp hx
    split
    · -- a SETUP member holds no receipt and becomes READY
      rename_i hs
      have hn : m.receipt.isSome = false := by
        cases hr : m.receipt.isSome
        · rfl
        · simp [(hM m hm).mp hr] at hs
      simp [hn]
    · exact hM m hm
  | claimMember i m owner expiresAt now hm hs =>
    have hr := hM.receipt_none hm hs.2
    exact receiptsMatch_set hM i (by simp [hr])
  | memberPublish i m outcome now wall hm hs =>
    have hr := hM.receipt_none hm (by simp [hs])
    unfold ReceiptsMatch
    rw [recordMemberPublish_members]
    refine receiptsMatch_set hM i ?_
    simp only [memberAfterPublish_receipt, memberAfterPublish_state, hr]
    cases outcome.kind <;> simp
  | memberFailed i m r now wall hm hr hf =>
    unfold ReceiptsMatch
    rw [setChordSuppressed_members]
    exact recordReceipt_receiptsMatch hM i m r now
  | memberPending i m r now hm hr ho hs => exact recordReceipt_receiptsMatch hM i m r now
  | memberComplete i m r now payload hm hr ho hs hb =>
    unfold ReceiptsMatch
    rw [readyCallback_members]
    exact recordReceipt_receiptsMatch hM i m r now
  | claimCallback owner expiresAt now ha => simpa [ReceiptsMatch] using hM
  | callbackPublish outcome now hs => simpa [ReceiptsMatch] using hM
  | callbackTerminal outcome now wall ho => simpa [ReceiptsMatch] using hM

/-- Receipts are written once: no accepted change removes or replaces one, and none
changes a member's task id. -/
theorem receiptsKept_move {d d' : ChordDelivery V} (hM : ReceiptsMatch d)
    (h : ChordMove codec d d') : ReceiptsKept d d' := by
  cases h with
  | prepare now =>
    intro i m hm
    refine ⟨_,by rw [prepareChordMembers_members, List.getElem?_map, hm]; rfl,?_,?_⟩
    · dsimp only
      split <;> rfl
    · intro r hr
      dsimp only
      split <;> exact hr
  | claimMember i m owner expiresAt now hm hs =>
    exact receiptsKept_set hm rfl rfl (fun r hr => by simpa using hr)
  | memberPublish i m outcome now wall hm hs =>
    have hr := hM.receipt_none hm (by simp [hs])
    refine receiptsKept_set hm (recordMemberPublish_members ..) ?_ (fun r h => by simp [hr] at h)
    unfold memberAfterPublish
    split <;> split <;> rfl
  | memberFailed i m r now wall hm hr hf =>
    have h := recordReceipt_receiptsKept hm hr r now
    unfold ReceiptsKept
    rwa [setChordSuppressed_members]
  | memberPending i m r now hm hr ho hs => exact recordReceipt_receiptsKept hm hr r now
  | memberComplete i m r now payload hm hr ho hs hb =>
    have h := recordReceipt_receiptsKept hm hr r now
    unfold ReceiptsKept
    rwa [readyCallback_members]
  | claimCallback owner expiresAt now ha => exact receiptsKept_of_members (leasedCallback_members ..)
  | callbackPublish outcome now hs => exact receiptsKept_of_members (recordCallbackPublish_members ..)
  | callbackTerminal outcome now wall ho => exact receiptsKept_of_members (deliverCallback_members ..)

theorem receiptsMatch_step {d : ChordDelivery V} (hM : ReceiptsMatch d) (t : ChordTransition V) :
    ReceiptsMatch (chordStep codec d t) := by
  rcases chordStep_move codec d t with h | h
  · rwa [h]
  · exact receiptsMatch_move hM h

theorem receiptsMatch_reachable {d : ChordDelivery V} (h : ChordReachable codec d) :
    ReceiptsMatch d := by
  refine @Runs.Reachable.invariant _ _ ChordInitial (chordStep codec) ReceiptsMatch ?_
    (fun s t hs => receiptsMatch_step hs t) d h
  rintro _ ⟨reg,owner,now,rfl⟩ x hx
  obtain ⟨r,-,rfl⟩ := List.mem_map.mp hx
  simp

theorem receiptsKept_run {d : ChordDelivery V} (hM : ReceiptsMatch d)
    (ts : List (ChordTransition V)) : ReceiptsKept d (Runs.run (chordStep codec) d ts) := by
  refine @Runs.run_relates _ _ (chordStep codec) ReceiptsMatch ReceiptsKept
    (fun s t hs => receiptsMatch_step hs t) ReceiptsKept.refl (fun _ _ _ h₁ h₂ => h₁.trans h₂)
    ?_ ts d hM
  intro s t hs
  rcases chordStep_move codec s t with h | h
  · rw [h]
    exact .refl s
  · exact receiptsKept_move hs h

/-! ### The answers of `ApplyChordMemberTerminal` -/

theorem applyChordMemberTerminal_notFound {d : ChordDelivery V} {o : Int} (hm : d.member? o = none)
    (taskID : String) (outcome : MemberTerminalOutcome) (results : Results V) (now wall : Time) :
    applyChordMemberTerminal codec d o taskID outcome results now wall = (d,some .notFound) := by
  unfold applyChordMemberTerminal
  rw [hm]

theorem applyChordMemberTerminal_taskMismatch {d : ChordDelivery V} {o : Int} {i : Nat}
    {m : ChordMemberPublication V} {taskID : String} (hm : d.member? o = some (i,m))
    (ht : m.taskID ≠ taskID) (outcome : MemberTerminalOutcome) (results : Results V)
    (now wall : Time) :
    applyChordMemberTerminal codec d o taskID outcome results now wall = (d,some .receiptConflict) := by
  unfold applyChordMemberTerminal
  rw [hm]
  exact if_pos ht

theorem applyChordMemberTerminal_cloneError {d : ChordDelivery V} {o : Int} {i : Nat}
    {m : ChordMemberPublication V} {taskID : String} {results : Results V} {e : ChordError}
    (hm : d.member? o = some (i,m)) (ht : m.taskID = taskID)
    (hc : cloneChordResults codec results = .error e) (outcome : MemberTerminalOutcome)
    (now wall : Time) :
    applyChordMemberTerminal codec d o taskID outcome results now wall = (d,some e) := by
  unfold applyChordMemberTerminal
  rw [hm]
  dsimp only
  rw [if_neg (not_not.mpr ht), hc]

/-- On a member that holds a receipt nothing is written; the answer compares the
encoding of the stored receipt with that of the candidate. -/
theorem applyChordMemberTerminal_existing {d : ChordDelivery V} {o : Int} {i : Nat}
    {m : ChordMemberPublication V} {r : ChordMemberReceipt V} {taskID : String}
    {results copy : Results V} (hm : d.member? o = some (i,m)) (ht : m.taskID = taskID)
    (hr : m.receipt = some r) (hc : cloneChordResults codec results = .ok copy)
    (outcome : MemberTerminalOutcome) (now wall : Time) :
    applyChordMemberTerminal codec d o taskID outcome results now wall =
      (d,if marshalReceipt codec r = marshalReceipt codec ⟨taskID,outcome,copy⟩ then none
        else some .receiptConflict) := by
  unfold applyChordMemberTerminal
  rw [hm]
  dsimp only
  rw [if_neg (not_not.mpr ht), hc]
  dsimp only
  rw [hr]
  dsimp only
  split <;> simp_all

@[simp] theorem readyCallback_version (d : ChordDelivery V) (payload : Bytes) :
    (readyCallback d payload).version = d.version := by
  unfold readyCallback
  split <;> rfl

/-- A first receipt: the call writes the record of `recordReceipt` under a new
`Version`. -/
theorem applyChordMemberTerminal_fresh {d : ChordDelivery V} {o : Int} {i : Nat}
    {m : ChordMemberPublication V} {taskID : String} {outcome : MemberTerminalOutcome}
    {results copy : Results V} {now wall : Time} (hm : d.member? o = some (i,m))
    (ht : m.taskID = taskID) (hr : m.receipt = none) (hc : cloneChordResults codec results = .ok copy)
    (h : (applyChordMemberTerminal codec d o taskID outcome results now wall).2 = none) :
    (applyChordMemberTerminal codec d o taskID outcome results now wall).1.members =
        (recordReceipt d i m ⟨taskID,outcome,copy⟩ now).members ∧
      (applyChordMemberTerminal codec d o taskID outcome results now wall).1.version ≠ d.version := by
  generalize hres : applyChordMemberTerminal codec d o taskID outcome results now wall = res at h ⊢
  obtain ⟨d',e⟩ := res
  cases h
  unfold applyChordMemberTerminal at hres
  rw [hm] at hres
  dsimp only at hres
  rw [if_neg (not_not.mpr ht), hc] at hres
  dsimp only at hres
  rw [hr] at hres
  dsimp only at hres
  split at hres
  · -- FAILURE suppresses the callback on top of the receipt
    simp only [Prod.mk.injEq, and_true] at hres
    subst hres
    simp <;> omega
  · rcases completeChord_ok hres with ⟨-,rfl⟩ | ⟨-,rfl⟩ | ⟨-,payload,-,rfl⟩ <;> simp <;> omega

theorem commitChord_self (d : ChordDelivery V) (c : Bool) (e : Option ChordError) :
    commitChord d d c e = d := by
  unfold commitChord
  split <;> rfl

/-- After a call that succeeded, the member holds a receipt with the encoding of the
call's candidate, whether the call wrote it or found it. -/
theorem applyChordMemberTerminal_ok_receipt {d : ChordDelivery V} {o : Int} {taskID : String}
    {outcome : MemberTerminalOutcome} {results : Results V} {now wall : Time}
    (h : (applyChordMemberTerminal codec d o taskID outcome results now wall).2 = none) :
    ∃ (i : Nat) (copy : Results V) (m₁ : ChordMemberPublication V) (r : ChordMemberReceipt V),
      (o = i) ∧ cloneChordResults codec results = .ok copy ∧
      (chordStep codec d (.applyChordMemberTerminal o taskID outcome results now wall)).members[i]? =
        some m₁ ∧
      m₁.taskID = taskID ∧ m₁.receipt = some r ∧
      marshalReceipt codec r = marshalReceipt codec ⟨taskID,outcome,copy⟩ := by
  cases hm : d.member? o with
  | none => simp [applyChordMemberTerminal_notFound hm] at h
  | some p =>
    obtain ⟨i,m⟩ := p
    obtain ⟨rfl,hmi⟩ := member?_some hm
    by_cases ht : m.taskID = taskID
    swap
    · simp [applyChordMemberTerminal_taskMismatch hm ht] at h
    cases hc : cloneChordResults codec results with
    | error e => simp [applyChordMemberTerminal_cloneError hm ht hc] at h
    | ok copy =>
      cases hr : m.receipt with
      | some r =>
        -- a repeat or a conflict: nothing is stored, and `h` says the encodings agree
        have hres := applyChordMemberTerminal_existing hm ht hr hc outcome now wall
        rw [hres] at h
        have he : marshalReceipt codec r = marshalReceipt codec ⟨taskID,outcome,copy⟩ := by
          by_contra hne
          simp [hne] at h
        refine ⟨i,copy,m,r,rfl,rfl,?_,ht,hr,he⟩
        simp only [chordStep, hres, commitChord_self]
        exact hmi
      | none =>
        obtain ⟨hmem,hv⟩ := applyChordMemberTerminal_fresh hm ht hr hc h
        have hstep : chordStep codec d (.applyChordMemberTerminal i taskID outcome results now wall) =
            (applyChordMemberTerminal codec d i taskID outcome results now wall).1 := by
          simp only [chordStep, commitChord, h, bne_iff_ne, ne_eq, hv, not_false_eq_true, and_self,
            if_true]
        have hi : i < d.members.length := (List.getElem?_eq_some_iff.mp hmi).1
        refine ⟨i,copy,{ m with
          state := .terminal, leaseOwner := "", leaseExpiresAt := .zero,
          receipt := some ⟨taskID,outcome,copy⟩, version := wrapInt64 (m.version + 1) },_,rfl,rfl,?_,ht,rfl,rfl⟩
        rw [hstep, hmem, recordReceipt_members, List.getElem?_set_self hi]

/-- Repeating a call that succeeded succeeds again and changes nothing, after any run. -/
theorem applyChordMemberTerminal_repeat {d : ChordDelivery V} (hM : ReceiptsMatch d)
    {o : Int} {taskID : String} {outcome : MemberTerminalOutcome} {results : Results V}
    {now wall : Time}
    (h : (applyChordMemberTerminal codec d o taskID outcome results now wall).2 = none)
    (ts : List (ChordTransition V)) (now' wall' : Time) :
    applyChordMemberTerminal codec
        (Runs.run (chordStep codec) d (.applyChordMemberTerminal o taskID outcome results now wall :: ts))
        o taskID outcome results now' wall' =
      (Runs.run (chordStep codec) d (.applyChordMemberTerminal o taskID outcome results now wall :: ts),
        none) := by
  obtain ⟨i,copy,m₁,r,rfl,hc,hm₁,ht₁,hr₁,he⟩ := applyChordMemberTerminal_ok_receipt h
  rw [Runs.run_cons]
  have hM₁ := @receiptsMatch_step V Sig codec d hM
    (.applyChordMemberTerminal i taskID outcome results now wall)
  obtain ⟨m₂,hm₂,ht₂,hr₂⟩ := receiptsKept_run hM₁ ts i m₁ hm₁
  rw [applyChordMemberTerminal_existing (member?_of_getElem? hm₂) (ht₂.trans ht₁) (hr₂ r hr₁) hc,
    if_pos he]

end

/-- What the receipts of `d` promise: a receipt sits exactly on the MEMBER_TERMINAL
members and no run removes or replaces it; a call that succeeded succeeds again, changing
nothing, whenever it is repeated; on a member that holds a receipt a call changes nothing
and its answer compares encodings, or reports the failed round trip of the results; an
unknown ordinal or another task id is refused without change. -/
def ReceiptsWriteOnce (codec : TaskCodec V Sig) (d : ChordDelivery V) : Prop :=
  ReceiptsMatch d ∧
  (∀ ts : List (ChordTransition V), ReceiptsKept d (Runs.run (chordStep codec) d ts)) ∧
  (∀ (o : Int) (taskID : String) (outcome : MemberTerminalOutcome) (results : Results V)
      (now wall : Time),
    (applyChordMemberTerminal codec d o taskID outcome results now wall).2 = none →
    ∀ (ts : List (ChordTransition V)) (now' wall' : Time),
      applyChordMemberTerminal codec (Runs.run (chordStep codec) d
          (.applyChordMemberTerminal o taskID outcome results now wall :: ts))
        o taskID outcome results now' wall' =
      (Runs.run (chordStep codec) d
        (.applyChordMemberTerminal o taskID outcome results now wall :: ts), none)) ∧
  (∀ (o : Int) (taskID : String) (outcome : MemberTerminalOutcome) (results copy : Results V)
      (now wall : Time) (i : Nat) (m : ChordMemberPublication V) (r : ChordMemberReceipt V),
    d.member? o = some (i,m) → m.taskID = taskID → m.receipt = some r →
    cloneChordResults codec results = .ok copy →
    applyChordMemberTerminal codec d o taskID outcome results now wall =
      (d,if marshalReceipt codec r = marshalReceipt codec ⟨taskID,outcome,copy⟩ then none
        else some .receiptConflict)) ∧
  (∀ (o : Int) (taskID : String) (outcome : MemberTerminalOutcome) (results : Results V)
      (now wall : Time) (i : Nat) (m : ChordMemberPublication V) (e : ChordError),
    d.member? o = some (i,m) → m.taskID = taskID → cloneChordResults codec results = .error e →
    applyChordMemberTerminal codec d o taskID outcome results now wall = (d,some e)) ∧
  (∀ (o : Int) (taskID : String) (outcome : MemberTerminalOutcome) (results : Results V)
      (now wall : Time),
    d.member? o = none →
    applyChordMemberTerminal codec d o taskID outcome results now wall = (d,some .notFound)) ∧
  (∀ (o : Int) (taskID : String) (outcome : MemberTerminalOutcome) (results : Results V)
      (now wall : Time) (i : Nat) (m : ChordMemberPublication V),
    d.member? o = some (i,m) → m.taskID ≠ taskID →
    applyChordMemberTerminal codec d o taskID outcome results now wall =
      (d,some .receiptConflict))

section
variable {codec : TaskCodec V Sig}

/-- Every reachable delivery keeps the promises of its receipts. -/
theorem chord_receipts_write_once {d : ChordDelivery V} (h : ChordReachable codec d) :
    ReceiptsWriteOnce codec d := by
  have hM := receiptsMatch_reachable h
  refine ⟨hM,receiptsKept_run hM,?_,?_,?_,?_,?_⟩
  · intro o taskID outcome results now wall hok ts now' wall'
    exact applyChordMemberTerminal_repeat hM hok ts now' wall'
  · intro o taskID outcome results copy now wall i m r hm ht hr hc
    exact applyChordMemberTerminal_existing hm ht hr hc outcome now wall
  · intro o taskID outcome results now wall i m e hm ht hc
    exact applyChordMemberTerminal_cloneError hm ht hc outcome now wall
  · intro o taskID outcome results now wall hm
    exact applyChordMemberTerminal_notFound hm taskID outcome results now wall
  · intro o taskID outcome results now wall i m hm ht
    exact applyChordMemberTerminal_taskMismatch hm ht outcome results now wall

end

/-- The sample chord after its member's SUCCESS receipt. -/
theorem chord_receipts_write_once_sample :
    ChordReachable (sampleCodec []) (sampleRun [] [.applyChordMemberTerminal 0 "t" .success none ⟨2⟩ ⟨2⟩]) ∧
    ReceiptsWriteOnce (sampleCodec []) (sampleRun [] [.applyChordMemberTerminal 0 "t" .success none ⟨2⟩ ⟨2⟩]) :=
  ⟨sampleRun_reachable [] _,chord_receipts_write_once (sampleRun_reachable [] _)⟩

/-- An `int` result is recorded; the same call with an `int64` result of the same value is
answered as a repeat, since both encode as the same JSON and decode to one `float64`. -/
theorem json_equal_results_accepted :
    (some [some ⟨"int",.int64 1⟩] : Results GoValue) ≠ some [some ⟨"int",.int 1⟩] ∧
    applyChordMemberTerminal (sampleCodec [some [some ⟨"int",.int 1⟩]])
        (sampleRun [some [some ⟨"int",.int 1⟩]]
          [.applyChordMemberTerminal 0 "t" .success (some [some ⟨"int",.int 1⟩]) ⟨2⟩ ⟨2⟩])
        0 "t" .success (some [some ⟨"int",.int64 1⟩]) ⟨3⟩ ⟨3⟩ =
      (sampleRun [some [some ⟨"int",.int 1⟩]]
        [.applyChordMemberTerminal 0 "t" .success (some [some ⟨"int",.int 1⟩]) ⟨2⟩ ⟨2⟩], none) := by
  decide

end Gkit.Chord
