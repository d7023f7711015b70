import Gkit.Chord.Transitions

/-!
What one stored step can do: for each backend call, either the stored delivery is left
as it was, or it is one explicitly given update of it, under the guards the Go code
checks on the way. Every invariant of the chord model is proved from these lemmas
alone, never by unfolding a transition function again.
-/

namespace Gkit.Chord

variable {V Sig : Type}

theorem commitChord_cases (d d' : ChordDelivery V) (c : Bool) (e : Option ChordError) :
    commitChord d d' c e = d ∨ (commitChord d d' c e = d' ∧ e = none ∧ c = true) := by
  unfold commitChord
  split
  · rename_i h
    exact .inr ⟨rfl,h⟩
  · exact .inl rfl

theorem member?_some {d : ChordDelivery V} {o : Int} {i : Nat} {m : ChordMemberPublication V}
    (h : d.member? o = some (i,m)) : o = i ∧ d.members[i]? = some m := by
  unfold ChordDelivery.member? at h
  split at h
  · cases h
  · rename_i ho
    obtain ⟨m',hm,he⟩ := Option.map_eq_some_iff.mp h
    simp only [Prod.mk.injEq] at he
    obtain ⟨rfl,rfl⟩ := he
    exact ⟨by omega,hm⟩

theorem member?_of_lt {d : ChordDelivery V} {i : Nat} (hi : i < d.members.length) :
    d.member? i = some (i,d.members[i]) := by
  simp [ChordDelivery.member?, hi]

theorem member?_of_getElem? {d : ChordDelivery V} {i : Nat} {m : ChordMemberPublication V}
    (h : d.members[i]? = some m) : d.member? i = some (i,m) := by
  simp [ChordDelivery.member?, h]

@[simp] theorem setMember_members (d : ChordDelivery V) (i : Nat) (m : ChordMemberPublication V) :
    (d.setMember i m).members = d.members.set i m := rfl

@[simp] theorem setMember_callbackState (d : ChordDelivery V) (i : Nat)
    (m : ChordMemberPublication V) : (d.setMember i m).callbackState = d.callbackState := rfl

@[simp] theorem setMember_callbackPayload (d : ChordDelivery V) (i : Nat)
    (m : ChordMemberPublication V) : (d.setMember i m).callbackPayload = d.callbackPayload := rfl

theorem setMember_same {d : ChordDelivery V} {i : Nat} {m : ChordMemberPublication V}
    (h : d.members[i]? = some m) : d.setMember i m = d := by
  obtain ⟨hi,rfl⟩ := List.getElem?_eq_some_iff.mp h
  simp [ChordDelivery.setMember]

/-! ### Terminal bookkeeping -/

theorem setChordTerminalTime_eq (d : ChordDelivery V) (now wall : Time) :
    setChordTerminalTime d now wall =
      { d with
        terminalAt := nowOr now wall
        terminalExpireAt := if d.retention < 0 then none
          else some ((nowOr now wall).Add (wrapInt64 (normalizeChordRetention d.retention * second))) } := by
  unfold setChordTerminalTime
  split <;> simp_all

@[simp] theorem setChordTerminalTime_members (d : ChordDelivery V) (now wall : Time) :
    (setChordTerminalTime d now wall).members = d.members := by
  rw [setChordTerminalTime_eq]

@[simp] theorem setChordTerminalTime_callbackState (d : ChordDelivery V) (now wall : Time) :
    (setChordTerminalTime d now wall).callbackState = d.callbackState := by
  rw [setChordTerminalTime_eq]

@[simp] theorem setChordTerminalTime_callbackPayload (d : ChordDelivery V) (now wall : Time) :
    (setChordTerminalTime d now wall).callbackPayload = d.callbackPayload := by
  rw [setChordTerminalTime_eq]

@[simp] theorem setChordTerminalTime_version (d : ChordDelivery V) (now wall : Time) :
    (setChordTerminalTime d now wall).version = d.version := by
  rw [setChordTerminalTime_eq]

@[simp] theorem setChordTerminalTime_callbackVersion (d : ChordDelivery V) (now wall : Time) :
    (setChordTerminalTime d now wall).callbackVersion = d.callbackVersion := by
  rw [setChordTerminalTime_eq]

/-- A delivery whose callback already has its terminal outcome. -/
def ChordDelivery.Closed (d : ChordDelivery V) : Prop :=
  d.callbackState = .delivered ∨ d.callbackState = .suppressed

instance (d : ChordDelivery V) : Decidable d.Closed := inferInstanceAs (Decidable (_ ∨ _))

theorem setChordSuppressed_of_closed {d : ChordDelivery V} (h : d.Closed) (now wall : Time) :
    setChordSuppressed d now wall = d := by
  unfold setChordSuppressed
  exact if_pos h

theorem setChordSuppressed_of_open {d : ChordDelivery V} (h : ¬ d.Closed) (now wall : Time) :
    setChordSuppressed d now wall =
      { setChordTerminalTime { d with callbackState := .suppressed, terminalOutcome := some .failure }
          now wall with callbackVersion := wrapInt64 (d.callbackVersion + 1) } := by
  unfold setChordSuppressed ChordDelivery.Closed at *
  rw [if_neg h]
  simp

@[simp] theorem setChordSuppressed_members (d : ChordDelivery V) (now wall : Time) :
    (setChordSuppressed d now wall).members = d.members := by
  by_cases h : d.Closed
  · rw [setChordSuppressed_of_closed h]
  · rw [setChordSuppressed_of_open h]; simp

@[simp] theorem setChordSuppressed_version (d : ChordDelivery V) (now wall : Time) :
    (setChordSuppressed d now wall).version = d.version := by
  by_cases h : d.Closed
  · rw [setChordSuppressed_of_closed h]
  · rw [setChordSuppressed_of_open h]; simp

@[simp] theorem setChordSuppressed_callbackPayload (d : ChordDelivery V) (now wall : Time) :
    (setChordSuppressed d now wall).callbackPayload = d.callbackPayload := by
  by_cases h : d.Closed
  · rw [setChordSuppressed_of_closed h]
  · rw [setChordSuppressed_of_open h]; simp

theorem setChordSuppressed_closed (d : ChordDelivery V) (now wall : Time) :
    (setChordSuppressed d now wall).Closed := by
  by_cases h : d.Closed
  · rwa [setChordSuppressed_of_closed h]
  · rw [setChordSuppressed_of_open h]
    exact .inr (by simp)

/-! ### The member transitions -/

theorem prepareChordMembers_members (d : ChordDelivery V) (now : Time) :
    (prepareChordMembers d now).members = d.members.map fun m =>
      if m.state = .setup then { m with state := .ready, version := wrapInt64 (m.version + 1) } else m := rfl

theorem leaseChordMember_claimed {d d' : ChordDelivery V} {i : Nat}
    {m : ChordMemberPublication V} {claim : ChordMemberClaim} {now : Time}
    {lease : ChordMemberLease} {err : Option ChordError}
    (h : leaseChordMember d i m claim now = (d',lease,true,err)) :
    err = none ∧
      d' = { d.setMember i (leasedMember m claim.owner
              (now.Add (leaseDurationOrDefault claim.leaseDuration))) with
        memberPublicationStarted := true, version := wrapInt64 (d.version + 1), updatedAt := now } ∧
      lease = {
        deliveryKey := d.deliveryKey, ordinal := m.ordinal, taskID := m.taskID,
        payload := m.payload, owner := claim.owner, version := wrapInt64 (m.version + 1),
        expiresAt := now.Add (leaseDurationOrDefault claim.leaseDuration) } := by
  unfold leaseChordMember at h
  dsimp only at h
  split at h
  · simp at h
  · simp only [Prod.mk.injEq] at h
    obtain ⟨rfl,rfl,-,rfl⟩ := h
    exact ⟨rfl,rfl,rfl⟩

/-- Everything a successful `ClaimChordMember` does. The reset to READY of an expired
lease or confirmation window is overwritten by the new lease. -/
theorem claimChordMember_claimed {d d' : ChordDelivery V} {claim : ChordMemberClaim}
    {wall : Time} {lease : ChordMemberLease} {err : Option ChordError}
    (h : claimChordMember d claim wall = (d',lease,true,err)) :
    err = none ∧ ∃ i m, d.member? claim.ordinal = some (i,m) ∧
      m.state ≠ .setup ∧ m.state ≠ .terminal ∧
      d' = { d.setMember i (leasedMember m claim.owner
              ((nowOr claim.now wall).Add (leaseDurationOrDefault claim.leaseDuration))) with
        memberPublicationStarted := true, version := wrapInt64 (d.version + 1),
        updatedAt := nowOr claim.now wall } ∧
      lease = {
        deliveryKey := d.deliveryKey, ordinal := m.ordinal, taskID := m.taskID,
        payload := m.payload, owner := claim.owner, version := wrapInt64 (m.version + 1),
        expiresAt := (nowOr claim.now wall).Add (leaseDurationOrDefault claim.leaseDuration) } := by
  unfold claimChordMember at h
  dsimp only at h
  split at h
  · simp at h
  · rename_i i m hm
    split at h
    · split at h
      · simp at h
      · obtain ⟨he,hd,hl⟩ := leaseChordMember_claimed h
        exact ⟨he,i,m,hm,by simp_all,by simp_all,hd,hl⟩
    · split at h
      · simp at h
      · obtain ⟨he,hd,hl⟩ := leaseChordMember_claimed h
        exact ⟨he,i,m,hm,by simp_all,by simp_all,hd,hl⟩
    · split at h
      · simp at h
      · obtain ⟨he,hd,hl⟩ := leaseChordMember_claimed h
        exact ⟨he,i,m,hm,by simp_all,by simp_all,hd,hl⟩
    · obtain ⟨he,hd,hl⟩ := leaseChordMember_claimed h
      exact ⟨he,i,m,hm,by simp_all,by simp_all,hd,hl⟩
    · simp at h
    · simp at h

theorem chordStep_claimChordMember (codec : TaskCodec V Sig) (d : ChordDelivery V)
    (claim : ChordMemberClaim) (wall : Time) :
    chordStep codec d (.claimChordMember claim wall) = d ∨
      ∃ lease, claimChordMember d claim wall =
        (chordStep codec d (.claimChordMember claim wall),lease,true,none) := by
  simp only [chordStep]
  rcases commitChord_cases d (claimChordMember d claim wall).1
      (claimChordMember d claim wall).2.2.1 (claimChordMember d claim wall).2.2.2 with h | ⟨h,he,hc⟩
  · exact .inl h
  · refine .inr ⟨(claimChordMember d claim wall).2.1,?_⟩
    rw [h, ← he, ← hc]

/-! ### What the named updates change -/

@[simp] theorem leasedMember_state (m : ChordMemberPublication V) (owner : String) (t : Time) :
    (leasedMember m owner t).state = .leased := rfl

@[simp] theorem leasedMember_receipt (m : ChordMemberPublication V) (owner : String) (t : Time) :
    (leasedMember m owner t).receipt = m.receipt := rfl

@[simp] theorem leasedMember_version (m : ChordMemberPublication V) (owner : String) (t : Time) :
    (leasedMember m owner t).version = wrapInt64 (m.version + 1) := rfl

theorem memberAfterPublish_receipt (m : ChordMemberPublication V) (outcome : ChordPublishOutcome)
    (now : Time) : (memberAfterPublish m outcome now).receipt =
      if outcome.kind = .rejected then
        some { taskID := m.taskID, outcome := .failure, results := none }
      else m.receipt := by
  unfold memberAfterPublish
  split <;> split <;> simp_all

theorem memberAfterPublish_state (m : ChordMemberPublication V) (outcome : ChordPublishOutcome)
    (now : Time) : (memberAfterPublish m outcome now).state =
      match outcome.kind with
      | .succeeded => .published
      | .unknown => .publishUnknown
      | .rejected => .terminal := by
  unfold memberAfterPublish
  split <;> split <;> simp_all

theorem recordMemberPublish_members (d : ChordDelivery V) (i : Nat) (m : ChordMemberPublication V)
    (outcome : ChordPublishOutcome) (now wall : Time) :
    (recordMemberPublish d i m outcome now wall).members =
      d.members.set i { memberAfterPublish m outcome now with
        version := wrapInt64 ((memberAfterPublish m outcome now).version + 1) } := by
  unfold recordMemberPublish
  split <;> simp [ChordDelivery.setMember]

theorem recordMemberPublish_callback (d : ChordDelivery V) (i : Nat) (m : ChordMemberPublication V)
    (outcome : ChordPublishOutcome) (now wall : Time) :
    (recordMemberPublish d i m outcome now wall).callbackState =
      (if outcome.kind = .rejected then setChordSuppressed d now wall else d).callbackState ∧
    (recordMemberPublish d i m outcome now wall).callbackPayload = d.callbackPayload := by
  unfold recordMemberPublish
  split <;> simp [ChordDelivery.setMember]

@[simp] theorem recordReceipt_members (d : ChordDelivery V) (i : Nat) (m : ChordMemberPublication V)
    (r : ChordMemberReceipt V) (now : Time) :
    (recordReceipt d i m r now).members = d.members.set i { m with
      state := .terminal, leaseOwner := "", leaseExpiresAt := .zero, receipt := some r,
      version := wrapInt64 (m.version + 1) } := rfl

@[simp] theorem recordReceipt_callbackState (d : ChordDelivery V) (i : Nat)
    (m : ChordMemberPublication V) (r : ChordMemberReceipt V) (now : Time) :
    (recordReceipt d i m r now).callbackState = d.callbackState := rfl

@[simp] theorem recordReceipt_callbackPayload (d : ChordDelivery V) (i : Nat)
    (m : ChordMemberPublication V) (r : ChordMemberReceipt V) (now : Time) :
    (recordReceipt d i m r now).callbackPayload = d.callbackPayload := rfl

@[simp] theorem readyCallback_members (d : ChordDelivery V) (payload : Bytes) :
    (readyCallback d payload).members = d.members := by
  unfold readyCallback; split <;> rfl

@[simp] theorem readyCallback_callbackState (d : ChordDelivery V) (payload : Bytes) :
    (readyCallback d payload).callbackState = .ready := by
  unfold readyCallback; split <;> rfl

theorem readyCallback_callbackPayload (d : ChordDelivery V) (payload : Bytes) :
    (readyCallback d payload).callbackPayload =
      if d.callbackPayload.isEmpty then payload else d.callbackPayload := by
  unfold readyCallback; split <;> rfl

@[simp] theorem leasedCallback_members (d : ChordDelivery V) (owner : String) (t now : Time) :
    (leasedCallback d owner t now).members = d.members := rfl

@[simp] theorem leasedCallback_callbackState (d : ChordDelivery V) (owner : String) (t now : Time) :
    (leasedCallback d owner t now).callbackState = .leased := rfl

@[simp] theorem leasedCallback_callbackPayload (d : ChordDelivery V) (owner : String)
    (t now : Time) : (leasedCallback d owner t now).callbackPayload = d.callbackPayload := rfl

@[simp] theorem recordCallbackPublish_members (d : ChordDelivery V) (outcome : ChordPublishOutcome)
    (now : Time) : (recordCallbackPublish d outcome now).members = d.members := by
  unfold recordCallbackPublish; split <;> simp_all

@[simp] theorem recordCallbackPublish_callbackPayload (d : ChordDelivery V)
    (outcome : ChordPublishOutcome) (now : Time) :
    (recordCallbackPublish d outcome now).callbackPayload = d.callbackPayload := by
  unfold recordCallbackPublish; split <;> simp_all

theorem recordCallbackPublish_callbackState (d : ChordDelivery V) (outcome : ChordPublishOutcome)
    (now : Time) : (recordCallbackPublish d outcome now).callbackState =
      match outcome.kind with
      | .succeeded => .published
      | .unknown => .publishUnknown
      | .rejected => .ready := by
  unfold recordCallbackPublish; split <;> simp_all

@[simp] theorem deliverCallback_members (d : ChordDelivery V) (outcome : CallbackTerminalOutcome)
    (now wall : Time) : (deliverCallback d outcome now wall).members = d.members := by
  simp [deliverCallback]

@[simp] theorem deliverCallback_callbackState (d : ChordDelivery V)
    (outcome : CallbackTerminalOutcome) (now wall : Time) :
    (deliverCallback d outcome now wall).callbackState = .delivered := by
  simp [deliverCallback]

@[simp] theorem deliverCallback_callbackPayload (d : ChordDelivery V)
    (outcome : CallbackTerminalOutcome) (now wall : Time) :
    (deliverCallback d outcome now wall).callbackPayload = d.callbackPayload := by
  simp [deliverCallback]

/-! ### Everything a stored step can do -/

/-- The callback states in which the callback is being published or about to be. -/
def ChordCallbackState.active : ChordCallbackState → Bool
  | .ready | .leased | .published | .publishUnknown => true
  | .waiting | .delivered | .suppressed => false

/-- Every change one accepted backend call makes to the stored delivery, with the
guards the Go code has checked before making it. -/
inductive ChordMove (codec : TaskCodec V Sig) (d : ChordDelivery V) : ChordDelivery V → Prop
  | prepare (now : Time) : ChordMove codec d (prepareChordMembers d now)
  | claimMember (i : Nat) (m : ChordMemberPublication V) (owner : String) (expiresAt now : Time)
      (hm : d.members[i]? = some m) (hs : m.state ≠ .setup ∧ m.state ≠ .terminal) :
      ChordMove codec d { d.setMember i (leasedMember m owner expiresAt) with
        memberPublicationStarted := true, version := wrapInt64 (d.version + 1), updatedAt := now }
  | memberPublish (i : Nat) (m : ChordMemberPublication V) (outcome : ChordPublishOutcome)
      (now wall : Time) (hm : d.members[i]? = some m) (hs : m.state = .leased) :
      ChordMove codec d (recordMemberPublish d i m outcome now wall)
  | memberFailed (i : Nat) (m : ChordMemberPublication V) (r : ChordMemberReceipt V)
      (now wall : Time) (hm : d.members[i]? = some m) (hr : m.receipt = none)
      (hf : r.outcome = .failure ∨ scanReceipts (recordReceipt d i m r now).members = .failed) :
      ChordMove codec d (setChordSuppressed (recordReceipt d i m r now) now wall)
  | memberPending (i : Nat) (m : ChordMemberPublication V) (r : ChordMemberReceipt V)
      (now : Time) (hm : d.members[i]? = some m) (hr : m.receipt = none)
      (ho : r.outcome = .success)
      (hs : scanReceipts (recordReceipt d i m r now).members = .missing) :
      ChordMove codec d (recordReceipt d i m r now)
  | memberComplete (i : Nat) (m : ChordMemberPublication V) (r : ChordMemberReceipt V)
      (now : Time) (payload : Bytes) (hm : d.members[i]? = some m) (hr : m.receipt = none)
      (ho : r.outcome = .success)
      (hs : scanReceipts (recordReceipt d i m r now).members = .complete)
      (hb : buildChordCallbackPayload codec (recordReceipt d i m r now) = .ok payload) :
      ChordMove codec d (readyCallback (recordReceipt d i m r now) payload)
  | claimCallback (owner : String) (expiresAt now : Time) (ha : d.callbackState.active = true) :
      ChordMove codec d (leasedCallback d owner expiresAt now)
  | callbackPublish (outcome : ChordPublishOutcome) (now : Time)
      (hs : d.callbackState = .leased) :
      ChordMove codec d (recordCallbackPublish d outcome now)
  | callbackTerminal (outcome : CallbackTerminalOutcome) (now wall : Time) (ho : ¬ d.Closed) :
      ChordMove codec d (deliverCallback d outcome now wall)

theorem move_of_claimMember {codec : TaskCodec V Sig} {d d' : ChordDelivery V}
    {claim : ChordMemberClaim} {wall : Time} {lease : ChordMemberLease}
    (h : claimChordMember d claim wall = (d',lease,true,none)) : ChordMove codec d d' := by
  obtain ⟨-,i,m,hm,hs,ht,rfl,-⟩ := claimChordMember_claimed h
  exact .claimMember i m _ _ _ (member?_some hm).2 ⟨hs,ht⟩

/-- Everything an accepted `ApplyChordMemberPublishOutcome` does. -/
theorem applyChordMemberPublishOutcome_ok {d d' : ChordDelivery V} {lease : ChordMemberLease}
    {outcome : ChordPublishOutcome} {wall : Time}
    (h : applyChordMemberPublishOutcome d lease outcome wall = (d',none)) :
    ∃ i m, d.member? lease.ordinal = some (i,m) ∧ m.state = .leased ∧
      m.leaseOwner = lease.owner ∧ m.version = lease.version ∧
      d' = recordMemberPublish d i m outcome (nowOr outcome.now wall) wall := by
  unfold applyChordMemberPublishOutcome at h
  split at h
  · simp at h
  · rename_i i m hm
    split at h
    · simp at h
    · rename_i hg
      simp only [Prod.mk.injEq, and_true] at h
      simp only [not_or, not_not] at hg
      exact ⟨i,m,hm,hg.1,hg.2.1,hg.2.2,h.symm⟩

theorem completeChord_ok {codec : TaskCodec V Sig} {d d' : ChordDelivery V} {now wall : Time}
    (h : completeChord codec d now wall = (d',none)) :
    (scanReceipts d.members = .missing ∧ d' = d) ∨
    (scanReceipts d.members = .failed ∧ d' = setChordSuppressed d now wall) ∨
    (scanReceipts d.members = .complete ∧
      ∃ payload, buildChordCallbackPayload codec d = .ok payload ∧ d' = readyCallback d payload) := by
  unfold completeChord at h
  split at h
  · rename_i hs
    simp only [Prod.mk.injEq, and_true] at h
    exact .inl ⟨hs,h.symm⟩
  · rename_i hs
    simp only [Prod.mk.injEq, and_true] at h
    exact .inr (.inl ⟨hs,h.symm⟩)
  · rename_i hs
    split at h
    · simp at h
    · rename_i payload hb
      simp only [Prod.mk.injEq, and_true] at h
      exact .inr (.inr ⟨hs,payload,hb,h.symm⟩)

@[simp] theorem recordReceipt_version (d : ChordDelivery V) (i : Nat)
    (m : ChordMemberPublication V) (r : ChordMemberReceipt V) (now : Time) :
    (recordReceipt d i m r now).version = wrapInt64 (d.version + 1) := rfl

/-- An accepted `RecordMemberTerminal` wrote a first receipt; a repeat or a conflict
leaves `Version` as it was and is not stored. -/
theorem move_of_memberTerminal {codec : TaskCodec V Sig} {d d' : ChordDelivery V} {o : Int}
    {t : String} {out : MemberTerminalOutcome} {res : Results V} {now wall : Time}
    (h : applyChordMemberTerminal codec d o t out res now wall = (d',none))
    (hv : d'.version ≠ d.version) : ChordMove codec d d' := by
  unfold applyChordMemberTerminal at h
  split at h
  · simp at h
  · rename_i i m hm
    have hmi := (member?_some hm).2
    split at h
    · simp at h
    · split at h
      · simp at h
      · rename_i copy _
        dsimp only at h
        split at h
        · -- A receipt was already there: nothing is written, whatever the comparison says.
          split at h <;> simp only [Prod.mk.injEq, reduceCtorEq, and_false, and_true] at h
          exact absurd (by rw [← h]) hv
        · rename_i hr
          split at h
          · rename_i hf
            simp only [Prod.mk.injEq, and_true] at h
            subst h
            exact .memberFailed i m _ now wall hmi hr (.inl hf)
          · rename_i hf
            have ho : out = .success := by cases out <;> simp_all
            rcases completeChord_ok h with ⟨hs,rfl⟩ | ⟨hs,rfl⟩ | ⟨hs,payload,hb,rfl⟩
            · exact .memberPending i m _ now hmi hr ho hs
            · exact .memberFailed i m _ now wall hmi hr (.inr hs)
            · exact .memberComplete i m _ now payload hmi hr ho hs hb

/-! ### The callback transitions -/

theorem leaseChordCallback_claimed {d d' : ChordDelivery V} {claim : ChordCallbackClaim}
    {now : Time} {lease : ChordCallbackLease} {err : Option ChordError}
    (h : leaseChordCallback d claim now = (d',lease,true,err)) :
    err = none ∧
      d' = leasedCallback d claim.owner (now.Add (leaseDurationOrDefault claim.leaseDuration)) now ∧
      lease = {
        deliveryKey := d.deliveryKey, payload := d.callbackPayload, owner := claim.owner,
        version := wrapInt64 (d.callbackVersion + 1),
        expiresAt := now.Add (leaseDurationOrDefault claim.leaseDuration) } := by
  unfold leaseChordCallback at h
  dsimp only at h
  split at h
  · simp at h
  · simp only [Prod.mk.injEq] at h
    obtain ⟨rfl,rfl,-,rfl⟩ := h
    exact ⟨rfl,rfl,rfl⟩

/-- Everything a successful `ClaimChordCallback` does; the reset to READY of an expired
lease or confirmation window is overwritten by the new lease. -/
theorem claimChordCallback_claimed {d d' : ChordDelivery V} {claim : ChordCallbackClaim}
    {wall : Time} {lease : ChordCallbackLease} {err : Option ChordError}
    (h : claimChordCallback d claim wall = (d',lease,true,err)) :
    err = none ∧ d.callbackState.active = true ∧
      d' = leasedCallback d claim.owner
        ((nowOr claim.now wall).Add (leaseDurationOrDefault claim.leaseDuration))
        (nowOr claim.now wall) ∧
      lease = {
        deliveryKey := d.deliveryKey, payload := d.callbackPayload, owner := claim.owner,
        version := wrapInt64 (d.callbackVersion + 1),
        expiresAt := (nowOr claim.now wall).Add (leaseDurationOrDefault claim.leaseDuration) } := by
  unfold claimChordCallback at h
  dsimp only at h
  split at h
  · split at h
    · simp at h
    · obtain ⟨he,hd,hl⟩ := leaseChordCallback_claimed h
      exact ⟨he,by simp_all [ChordCallbackState.active],hd,hl⟩
  · split at h
    · simp at h
    · obtain ⟨he,hd,hl⟩ := leaseChordCallback_claimed h
      exact ⟨he,by simp_all [ChordCallbackState.active],hd,hl⟩
  · split at h
    · simp at h
    · obtain ⟨he,hd,hl⟩ := leaseChordCallback_claimed h
      exact ⟨he,by simp_all [ChordCallbackState.active],hd,hl⟩
  · obtain ⟨he,hd,hl⟩ := leaseChordCallback_claimed h
    exact ⟨he,by simp_all [ChordCallbackState.active],hd,hl⟩
  all_goals simp at h

theorem applyChordCallbackPublishOutcome_ok {d d' : ChordDelivery V}
    {lease : ChordCallbackLease} {outcome : ChordPublishOutcome} {wall : Time}
    (h : applyChordCallbackPublishOutcome d lease outcome wall = (d',none)) :
    d.callbackState = .leased ∧ d.callbackLeaseOwner = lease.owner ∧
      d.callbackVersion = lease.version ∧
      d' = recordCallbackPublish d outcome (nowOr outcome.now wall) := by
  unfold applyChordCallbackPublishOutcome at h
  split at h
  · simp at h
  · rename_i hg
    simp only [Prod.mk.injEq, and_true] at h
    simp only [not_or, not_not] at hg
    exact ⟨hg.1,hg.2.1,hg.2.2,h.symm⟩

@[simp] theorem deliverCallback_version (d : ChordDelivery V) (outcome : CallbackTerminalOutcome)
    (now wall : Time) : (deliverCallback d outcome now wall).version = wrapInt64 (d.version + 1) := by
  simp [deliverCallback]

/-- An accepted `RecordCallbackTerminal` is the first terminal record; the exact repeat
on a delivered callback keeps `Version` and is not stored. -/
theorem applyChordCallbackTerminal_changed {d d' : ChordDelivery V}
    {outcome : CallbackTerminalOutcome} {now wall : Time}
    (h : applyChordCallbackTerminal d outcome now wall = (d',none))
    (hv : d'.version ≠ d.version) : ¬ d.Closed ∧ d' = deliverCallback d outcome now wall := by
  unfold applyChordCallbackTerminal at h
  split at h
  · split at h <;> simp only [Prod.mk.injEq, reduceCtorEq, and_false, and_true] at h
    exact absurd (by rw [← h]) hv
  · split at h
    · simp at h
    · rename_i hd hs
      simp only [Prod.mk.injEq, and_true] at h
      exact ⟨by simp [ChordDelivery.Closed, hd, hs],h.symm⟩

/-- The single inversion lemma of the chord model: a backend call either leaves the
stored delivery as it was or makes one of the `ChordMove` changes. -/
theorem chordStep_move (codec : TaskCodec V Sig) (d : ChordDelivery V) (t : ChordTransition V) :
    chordStep codec d t = d ∨ ChordMove codec d (chordStep codec d t) := by
  cases t with
  | prepareChordMembers now => exact .inr (.prepare now)
  | claimChordMember claim wall =>
    simp only [chordStep]
    generalize hr : claimChordMember d claim wall = r
    obtain ⟨d',lease,c,e⟩ := r
    rcases commitChord_cases d d' c e with h | ⟨h,rfl,rfl⟩
    · exact .inl h
    · rw [h]
      exact .inr (move_of_claimMember hr)
  | applyChordMemberPublishOutcome lease outcome wall =>
    simp only [chordStep]
    generalize hr : applyChordMemberPublishOutcome d lease outcome wall = r
    obtain ⟨d',e⟩ := r
    rcases commitChord_cases d d' true e with h | ⟨h,rfl,-⟩
    · exact .inl h
    · rw [h]
      obtain ⟨i,m,hm,hs,-,-,rfl⟩ := applyChordMemberPublishOutcome_ok hr
      exact .inr (.memberPublish i m outcome _ wall (member?_some hm).2 hs)
  | applyChordMemberTerminal o t out res now wall =>
    simp only [chordStep]
    generalize hr : applyChordMemberTerminal codec d o t out res now wall = r
    obtain ⟨d',e⟩ := r
    rcases commitChord_cases d d' (d'.version != d.version) e with h | ⟨h,rfl,hc⟩
    · exact .inl h
    · rw [h]
      exact .inr (move_of_memberTerminal hr (by simpa using hc))
  | claimChordCallback claim wall =>
    simp only [chordStep]
    generalize hr : claimChordCallback d claim wall = r
    obtain ⟨d',lease,c,e⟩ := r
    rcases commitChord_cases d d' c e with h | ⟨h,rfl,rfl⟩
    · exact .inl h
    · rw [h]
      obtain ⟨-,ha,rfl,-⟩ := claimChordCallback_claimed hr
      exact .inr (.claimCallback _ _ _ ha)
  | applyChordCallbackPublishOutcome lease outcome wall =>
    simp only [chordStep]
    generalize hr : applyChordCallbackPublishOutcome d lease outcome wall = r
    obtain ⟨d',e⟩ := r
    rcases commitChord_cases d d' true e with h | ⟨h,rfl,-⟩
    · exact .inl h
    · rw [h]
      obtain ⟨hs,-,-,rfl⟩ := applyChordCallbackPublishOutcome_ok hr
      exact .inr (.callbackPublish outcome _ hs)
  | applyChordCallbackTerminal outcome now wall =>
    simp only [chordStep]
    generalize hr : applyChordCallbackTerminal d outcome now wall = r
    obtain ⟨d',e⟩ := r
    rcases commitChord_cases d d' (d'.version != d.version) e with h | ⟨h,rfl,hc⟩
    · exact .inl h
    · rw [h]
      obtain ⟨ho,rfl⟩ := applyChordCallbackTerminal_changed hr (by simpa using hc)
      exact .inr (.callbackTerminal outcome now wall ho)

end Gkit.Chord
