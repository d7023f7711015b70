import Gkit.Chord.CallbackGuard

/-!
What a terminal callback outcome fixes. `setChordSuppressed` and
`ApplyChordCallbackTerminal` both refuse to leave DELIVERED or SUPPRESSED, and every
other step leaves the callback fields alone, except the last-receipt branch of
`ApplyChordMemberTerminal`, which sets READY without looking at the callback state.
-/

namespace Gkit.Chord

variable {V Sig : Type}

/-- The fields a terminal callback outcome records. -/
def ChordDelivery.terminalView (d : ChordDelivery V) :
    ChordCallbackState × Option CallbackTerminalOutcome × Time × Option Time :=
  (d.callbackState, d.terminalOutcome, d.terminalAt, d.terminalExpireAt)

@[simp] theorem terminalView_setMember (d : ChordDelivery V) (i : Nat)
    (m : ChordMemberPublication V) : (d.setMember i m).terminalView = d.terminalView := rfl

@[simp] theorem terminalView_recordReceipt (d : ChordDelivery V) (i : Nat)
    (m : ChordMemberPublication V) (r : ChordMemberReceipt V) (now : Time) :
    (recordReceipt d i m r now).terminalView = d.terminalView := rfl

theorem ChordDelivery.Closed.recordReceipt {d : ChordDelivery V} (hc : d.Closed) (i : Nat)
    (m : ChordMemberPublication V) (r : ChordMemberReceipt V) (now : Time) :
    (Gkit.Chord.recordReceipt d i m r now).Closed := by
  simpa [ChordDelivery.Closed] using hc

theorem recordMemberPublish_terminalView {d : ChordDelivery V} (hc : d.Closed) (i : Nat)
    (m : ChordMemberPublication V) (outcome : ChordPublishOutcome) (now wall : Time) :
    (recordMemberPublish d i m outcome now wall).terminalView = d.terminalView := by
  unfold recordMemberPublish
  split
  · rw [setChordSuppressed_of_closed hc]
    rfl
  · rfl

theorem exists_mem_set {α : Type} {P : α → Prop} {ms : List α} {i : Nat} {m m' : α}
    (hm : ms[i]? = some m) (hP : P m → P m') (h : ∃ x ∈ ms, P x) : ∃ x ∈ ms.set i m', P x := by
  obtain ⟨x,hx,hp⟩ := h
  obtain ⟨j,hj,rfl⟩ := List.getElem_of_mem hx
  by_cases hij : j = i
  · subst hij
    have hx : ms[j] = m := by simpa [hj] using hm
    exact ⟨m',List.mem_set hj m',hP (hx ▸ hp)⟩
  · refine ⟨ms[j],List.mem_of_getElem? (i := j) ?_,hp⟩
    simp [Ne.symm hij, hj]

theorem scanReceipts_failed {ms : List (ChordMemberPublication V)}
    (h : scanReceipts ms = .failed) : ∃ m ∈ ms, m.Failed := by
  induction ms with
  | nil => simp [scanReceipts] at h
  | cons m ms ih =>
    simp only [scanReceipts] at h
    split at h
    · cases h
    · rename_i r hr
      split at h
      · exact ⟨m,List.mem_cons_self,r,hr,by assumption⟩
      · obtain ⟨x,hx,hf⟩ := ih h
        exact ⟨x,List.mem_cons_of_mem m hx,hf⟩

theorem scanReceipts_ne_complete {ms : List (ChordMemberPublication V)}
    (h : ∃ m ∈ ms, m.Failed) : scanReceipts ms ≠ .complete := by
  intro hc
  obtain ⟨m,hm,r,hr,hf⟩ := h
  obtain ⟨r',hr',hs⟩ := scanReceipts_complete hc m hm
  rw [hr] at hr'
  cases hr'
  simp [hf] at hs

section
variable {codec : TaskCodec V Sig}

/-- Receipts are written once, and a rejected publish writes a FAILURE one, so a failed
member stays failed. -/
theorem failed_move {d d' : ChordDelivery V} (h : ChordMove codec d d')
    (hf : ∃ m ∈ d.members, m.Failed) : ∃ m ∈ d'.members, m.Failed := by
  cases h with
  | prepare now =>
    obtain ⟨m,hm,hf⟩ := hf
    refine ⟨_,List.mem_map_of_mem hm,?_⟩
    split <;> exact hf
  | claimMember i m owner expiresAt now hm hs =>
    exact exists_mem_set hm (fun hf => by simpa [ChordMemberPublication.Failed] using hf) hf
  | memberPublish i m outcome now wall hm hs =>
    rw [recordMemberPublish_members]
    refine exists_mem_set hm (fun hf => ?_) hf
    by_cases hk : outcome.kind = .rejected
    · exact ⟨{ taskID := m.taskID, outcome := .failure, results := none },
        by simp [memberAfterPublish_receipt, hk],rfl⟩
    · simpa [ChordMemberPublication.Failed, memberAfterPublish_receipt, hk] using hf
  | memberFailed i m r now wall hm hr =>
    rw [setChordSuppressed_members, recordReceipt_members]
    exact exists_mem_set hm (fun h => absurd h (ChordMemberPublication.not_failed_of_none hr)) hf
  | memberPending i m r now hm hr =>
    rw [recordReceipt_members]
    exact exists_mem_set hm (fun h => absurd h (ChordMemberPublication.not_failed_of_none hr)) hf
  | memberComplete i m r now payload hm hr =>
    rw [readyCallback_members, recordReceipt_members]
    exact exists_mem_set hm (fun h => absurd h (ChordMemberPublication.not_failed_of_none hr)) hf
  | claimCallback => simpa using hf
  | callbackPublish => simpa using hf
  | callbackTerminal => simpa using hf

/-- From a closed callback, every accepted change but a completing SUCCESS receipt leaves
the terminal outcome as it was. -/
theorem move_terminalView_of_closed {d d' : ChordDelivery V} (hc : d.Closed)
    (h : ChordMove codec d d') (hn : scanReceipts d'.members ≠ .complete) :
    d'.terminalView = d.terminalView := by
  cases h with
  | prepare now => rfl
  | claimMember i m owner expiresAt now hm hs => rfl
  | memberPublish i m outcome now wall hm hs => exact recordMemberPublish_terminalView hc i m outcome now wall
  | memberFailed i m r now wall hm hr hf =>
    rw [setChordSuppressed_of_closed (hc.recordReceipt i m r now)]
    rfl
  | memberPending i m r now hm hr ho hs => rfl
  | memberComplete i m r now payload hm hr ho hs hb =>
    -- the one change that reopens a closed callback
    rw [readyCallback_members] at hn
    exact absurd hs hn
  | claimCallback owner expiresAt now ha => simp [hc.not_active] at ha
  | callbackPublish outcome now hs => rcases hc with hc | hc <;> simp [hc] at hs
  | callbackTerminal outcome now wall ho => exact absurd hc ho

/-- A SUPPRESSED callback has a FAILURE receipt behind it. -/
def SuppressedFailed (d : ChordDelivery V) : Prop :=
  d.callbackState = .suppressed → ∃ m ∈ d.members, m.Failed

theorem suppressedFailed_move {d d' : ChordDelivery V} (h : ChordMove codec d d')
    (hd : SuppressedFailed d) : SuppressedFailed d' := by
  intro hs
  have hkeep := failed_move h
  cases h with
  | prepare now => exact hkeep (hd hs)
  | claimMember => exact hkeep (hd hs)
  | memberPublish i m outcome now wall hm hs' =>
    by_cases hk : outcome.kind = .rejected
    · -- the rejected member itself now holds the FAILURE receipt
      have hi : i < d.members.length := (List.getElem?_eq_some_iff.mp hm).1
      rw [recordMemberPublish_members]
      exact ⟨_,List.mem_set hi _,{ taskID := m.taskID, outcome := .failure, results := none },
        by simp [memberAfterPublish_receipt, hk],rfl⟩
    · have hs'' : d.callbackState = .suppressed := by
        simpa [(recordMemberPublish_callback d i m outcome now wall).1, hk] using hs
      exact hkeep (hd hs'')
  | memberFailed i m r now wall hm hr hf =>
    rw [setChordSuppressed_members]
    rcases hf with hf | hf
    · have hi : i < d.members.length := (List.getElem?_eq_some_iff.mp hm).1
      exact ⟨_,List.mem_set hi _,r,rfl,hf⟩
    · exact scanReceipts_failed hf
  | memberPending => exact hkeep (hd (by simpa using hs))
  | memberComplete => simp at hs
  | claimCallback => simp at hs
  | callbackPublish outcome now =>
    rw [recordCallbackPublish_callbackState] at hs
    split at hs <;> cases hs
  | callbackTerminal => simp at hs

theorem suppressedFailed_reachable {d : ChordDelivery V} (h : ChordReachable codec d) :
    SuppressedFailed d := by
  refine @Runs.Reachable.invariant _ _ ChordInitial (chordStep codec) SuppressedFailed ?_ ?_ d h
  · rintro _ ⟨reg,owner,now,rfl⟩ hs
    simp [newChordDelivery] at hs
  · intro s t hs
    rcases chordStep_move codec s t with h | h
    · rwa [h]
    · exact suppressedFailed_move h hs

/-- SUPPRESSED is final: from a reachable SUPPRESSED delivery no sequence of steps changes
the callback state, the terminal outcome or the terminal times. -/
theorem suppressed_final {d : ChordDelivery V} (h : ChordReachable codec d)
    (hs : d.callbackState = .suppressed) (ts : List (ChordTransition V)) :
    (Runs.run (chordStep codec) d ts).terminalView = d.terminalView := by
  let P : ChordDelivery V → Prop := fun s => s.callbackState = .suppressed ∧ ∃ m ∈ s.members, m.Failed
  have hview : ∀ s t, P s → (chordStep codec s t).terminalView = s.terminalView := by
    rintro s t ⟨hs,hf⟩
    rcases chordStep_move codec s t with h | h
    · rw [h]
    · exact move_terminalView_of_closed (.inr hs) h (scanReceipts_ne_complete (failed_move h hf))
  have hP : ∀ s t, P s → P (chordStep codec s t) := by
    intro s t hp
    have hv := hview s t hp
    refine ⟨?_,?_⟩
    · have := congrArg Prod.fst hv
      exact this.trans hp.1
    · rcases chordStep_move codec s t with h | h
      · rw [h]
        exact hp.2
      · exact failed_move h hp.2
  exact @Runs.run_relates _ _ (chordStep codec) P (fun s s' => s'.terminalView = s.terminalView)
    hP (fun _ => rfl) (fun _ _ _ h₁ h₂ => h₂.trans h₁) hview ts d ⟨hs,suppressedFailed_reachable h hs⟩

end

/-- A callback terminal recorded while the member is still out, then the member's SUCCESS
receipt: the delivered callback is READY again and a callback claim is granted. SUPPRESSED,
in contrast, is final on every reachable delivery. -/
theorem delivered_callback_reopened :
    ((sampleRun [] [.applyChordCallbackTerminal .success ⟨7⟩ ⟨7⟩]).callbackState = .delivered ∧
      (sampleRun [] [.applyChordCallbackTerminal .success ⟨7⟩ ⟨7⟩,
        .applyChordMemberTerminal 0 "t" .success none ⟨9⟩ ⟨9⟩]).callbackState = .ready ∧
      (claimChordCallback (sampleRun [] [.applyChordCallbackTerminal .success ⟨7⟩ ⟨7⟩,
        .applyChordMemberTerminal 0 "t" .success none ⟨9⟩ ⟨9⟩]) ⟨"w",⟨10⟩,0⟩ ⟨10⟩).2.2.1 = true) ∧
    ∀ {W S : Type} (codec : TaskCodec W S) (d : ChordDelivery W), ChordReachable codec d →
      d.callbackState = .suppressed → ∀ ts : List (ChordTransition W),
        (Runs.run (chordStep codec) d ts).terminalView = d.terminalView :=
  ⟨by decide,fun _ _ h hs ts => suppressed_final h hs ts⟩

end Gkit.Chord
