import Gkit.Chord.Steps

/-!
The callback is never published early and never for a failed chord. The invariant
`CallbackGuard` ties the callback state to the members' receipts: a receipt exists
exactly on a MEMBER_TERMINAL member, an active callback (READY, LEASED, PUBLISHED,
PUBLISH_UNKNOWN) has only SUCCESS receipts behind it and a payload, and a FAILURE
receipt closes the callback (SUPPRESSED, or DELIVERED when that came first).
-/

namespace Gkit.Chord

variable {V Sig : Type}

def ChordMemberPublication.Succeeded (m : ChordMemberPublication V) : Prop :=
  ∃ r, m.receipt = some r ∧ r.outcome = .success

def ChordMemberPublication.Failed (m : ChordMemberPublication V) : Prop :=
  ∃ r, m.receipt = some r ∧ r.outcome = .failure

structure CallbackGuard (d : ChordDelivery V) : Prop where
  receipt_iff : ∀ m ∈ d.members, m.receipt.isSome = true ↔ m.state = .terminal
  active_succeeded : d.callbackState.active = true → ∀ m ∈ d.members, m.Succeeded
  active_payload : d.callbackState.active = true → d.callbackPayload ≠ []
  failed_closed : (∃ m ∈ d.members, m.Failed) → d.Closed

theorem ChordDelivery.Closed.not_active {d : ChordDelivery V} (h : d.Closed) : d.callbackState.active = false := by
  rcases h with h | h <;> simp [h, ChordCallbackState.active]

theorem claimChordCallback_unclaimed_of_closed {d : ChordDelivery V} (hc : d.Closed)
    (claim : ChordCallbackClaim) (wall : Time) : (claimChordCallback d claim wall).2.2.1 = false := by
  generalize hr : claimChordCallback d claim wall = r
  obtain ⟨d',lease,claimed,err⟩ := r
  cases claimed
  · rfl
  · have ha := (claimChordCallback_claimed hr).2.1
    simp [hc.not_active] at ha

theorem scanReceipts_complete {ms : List (ChordMemberPublication V)}
    (h : scanReceipts ms = .complete) : ∀ m ∈ ms, m.Succeeded := by
  induction ms with
  | nil => simp
  | cons m ms ih =>
    simp only [scanReceipts] at h
    split at h
    · cases h
    · rename_i r hr
      split at h
      · cases h
      · rename_i hf
        intro m' hm'
        rcases List.mem_cons.mp hm' with rfl | hm'
        · exact ⟨r,hr,by cases ho : r.outcome <;> simp_all⟩
        · exact ih h m' hm'

theorem CallbackGuard.inactive_of_unreceipted {d : ChordDelivery V} (g : CallbackGuard d)
    {i : Nat} {m : ChordMemberPublication V} (hm : d.members[i]? = some m)
    (hr : m.receipt = none) : d.callbackState.active = false := by
  cases ha : d.callbackState.active
  · rfl
  · obtain ⟨r,hr',-⟩ := g.active_succeeded ha m (List.mem_of_getElem? hm)
    simp [hr] at hr'

/-- Replacing one member keeps the receipt-state correspondence when the new record
satisfies it. -/
theorem receipt_iff_set {ms : List (ChordMemberPublication V)}
    (h : ∀ m ∈ ms, m.receipt.isSome = true ↔ m.state = .terminal) (i : Nat)
    {m' : ChordMemberPublication V} (h' : m'.receipt.isSome = true ↔ m'.state = .terminal) :
    ∀ m ∈ ms.set i m', m.receipt.isSome = true ↔ m.state = .terminal := by
  intro m hm
  rcases List.mem_or_eq_of_mem_set hm with hm | rfl
  · exact h m hm
  · exact h'

theorem failed_of_set {ms : List (ChordMemberPublication V)} {i : Nat}
    {m' : ChordMemberPublication V} (h : ∃ m ∈ ms.set i m', m.Failed) :
    m'.Failed ∨ ∃ m ∈ ms, m.Failed := by
  obtain ⟨m,hm,hf⟩ := h
  rcases List.mem_or_eq_of_mem_set hm with hm | rfl
  · exact .inr ⟨m,hm,hf⟩
  · exact .inl hf

theorem ChordMemberPublication.not_failed_of_none {m : ChordMemberPublication V}
    (h : m.receipt = none) : ¬ m.Failed := by
  rintro ⟨r,hr,-⟩
  simp [h] at hr

theorem callbackGuard_initial {d : ChordDelivery V} (h : ChordInitial d) : CallbackGuard d := by
  obtain ⟨reg,owner,now,rfl⟩ := h
  refine ⟨?_,?_,?_,?_⟩
  · intro m hm
    obtain ⟨r,-,rfl⟩ := List.mem_map.mp hm
    simp
  · simp [newChordDelivery, ChordCallbackState.active]
  · simp [newChordDelivery, ChordCallbackState.active]
  · rintro ⟨m,hm,hf⟩
    obtain ⟨r,-,rfl⟩ := List.mem_map.mp hm
    exact absurd hf (ChordMemberPublication.not_failed_of_none rfl)

theorem recordReceipt_guard {d : ChordDelivery V} (g : CallbackGuard d) (i : Nat)
    (m : ChordMemberPublication V) (r : ChordMemberReceipt V) (now : Time) :
    ∀ x ∈ (recordReceipt d i m r now).members, x.receipt.isSome = true ↔ x.state = .terminal := by
  rw [recordReceipt_members]
  exact receipt_iff_set g.receipt_iff i (by simp)

/-- Whatever else a step did, ending in a closed callback re-establishes the guard as
long as the receipt correspondence holds. -/
theorem guard_of_closed {d : ChordDelivery V} (hc : d.Closed)
    (hr : ∀ m ∈ d.members, m.receipt.isSome = true ↔ m.state = .terminal) : CallbackGuard d where
  receipt_iff := hr
  active_succeeded := by simp [hc.not_active]
  active_payload := by simp [hc.not_active]
  failed_closed := fun _ => hc

section
variable {codec : TaskCodec V Sig}

theorem buildChordCallbackPayload_ne_nil
    (hcodec : ∀ s b, codec.marshalSignature s = .ok b → b ≠ []) {d : ChordDelivery V}
    {payload : Bytes} (h : buildChordCallbackPayload codec d = .ok payload) : payload ≠ [] := by
  unfold buildChordCallbackPayload at h
  cases hs : codec.unmarshalSignature d.callbackTemplate with
  | error e => simp [hs, Except.mapError, bind, Except.bind] at h
  | ok s =>
    cases ha : memberResultArgs d.members with
    | error e => simp [hs, ha, Except.mapError, bind, Except.bind] at h
    | ok extra =>
      cases hm : codec.marshalSignature (codec.setArgs s ((codec.args s).appendAll extra)) with
      | error e => simp [hs, ha, hm, Except.mapError, bind, Except.bind] at h
      | ok b =>
        simp only [hs, ha, hm, Except.mapError, bind, Except.bind, Except.ok.injEq] at h
        exact h ▸ hcodec _ _ hm

theorem callbackGuard_move (hcodec : ∀ s b, codec.marshalSignature s = .ok b → b ≠ [])
    {d d' : ChordDelivery V} (g : CallbackGuard d) (hmove : ChordMove codec d d') :
    CallbackGuard d' := by
  cases hmove with
  | prepare now =>
    refine ⟨?_,?_,g.active_payload,?_⟩
    · intro x hx
      rw [prepareChordMembers_members] at hx
      obtain ⟨m,hm,rfl⟩ := List.mem_map.mp hx
      split
      · rename_i hs
        have hn : m.receipt.isSome = false := by
          cases h : m.receipt.isSome
          · rfl
          · simp [(g.receipt_iff m hm).mp h] at hs
        simp [hn]
      · exact g.receipt_iff m hm
    · intro ha x hx
      rw [prepareChordMembers_members] at hx
      obtain ⟨m,hm,rfl⟩ := List.mem_map.mp hx
      have hs := g.active_succeeded ha m hm
      have ht : m.state = .terminal := (g.receipt_iff m hm).mp (by obtain ⟨r,hr,-⟩ := hs; simp [hr])
      simpa [ht] using hs
    · rintro ⟨x,hx,hf⟩
      rw [prepareChordMembers_members] at hx
      obtain ⟨m,hm,rfl⟩ := List.mem_map.mp hx
      apply g.failed_closed
      refine ⟨m,hm,?_⟩
      split at hf
      · exact hf
      · exact hf
  | claimMember i m owner expiresAt now hm hs =>
    have hr : m.receipt = none := by
      cases h : m.receipt with
      | none => rfl
      | some r =>
        exact absurd ((g.receipt_iff m (List.mem_of_getElem? hm)).mp (by simp [h])) hs.2
    have hi := g.inactive_of_unreceipted hm hr
    refine ⟨receipt_iff_set g.receipt_iff i (by simp [hr]),?_,?_,?_⟩
    · simp [hi]
    · simp [hi]
    · intro hf
      rcases failed_of_set hf with hf | hf
      · exact absurd hf (ChordMemberPublication.not_failed_of_none (by simpa using hr))
      · exact g.failed_closed hf
  | memberPublish i m outcome now wall hm hs =>
    have hr : m.receipt = none := by
      cases h : m.receipt with
      | none => rfl
      | some r =>
        have := (g.receipt_iff m (List.mem_of_getElem? hm)).mp (by simp [h])
        simp [hs] at this
    have hi := g.inactive_of_unreceipted hm hr
    obtain ⟨hst,hpay⟩ := recordMemberPublish_callback d i m outcome now wall
    have hrec : ∀ x ∈ (recordMemberPublish d i m outcome now wall).members,
        x.receipt.isSome = true ↔ x.state = .terminal := by
      rw [recordMemberPublish_members]
      refine receipt_iff_set g.receipt_iff i ?_
      simp only [memberAfterPublish_receipt, memberAfterPublish_state, hr]
      cases outcome.kind <;> simp
    by_cases hk : outcome.kind = .rejected
    · -- A rejected publish suppresses the callback.
      apply guard_of_closed _ hrec
      simp only [ChordDelivery.Closed, hst, hk, if_true]
      exact setChordSuppressed_closed d now wall
    · simp only [hk, if_false] at hst
      refine ⟨hrec,?_,?_,?_⟩
      · simp [hst, hi]
      · simp [hst, hi]
      · intro hf
        rw [recordMemberPublish_members] at hf
        rcases failed_of_set hf with hf | hf
        · exact absurd hf (ChordMemberPublication.not_failed_of_none
            (by simp [memberAfterPublish_receipt, hk, hr]))
        · have := g.failed_closed hf
          simpa [ChordDelivery.Closed, hst] using this
  | memberFailed i m r now wall hm hr hf =>
    apply guard_of_closed (setChordSuppressed_closed _ now wall)
    rw [setChordSuppressed_members]
    exact recordReceipt_guard g i m r now
  | memberPending i m r now hm hr ho hs =>
    have hi := g.inactive_of_unreceipted hm hr
    refine ⟨recordReceipt_guard g i m r now,?_,?_,?_⟩
    · simp [hi]
    · simp [hi]
    · intro hf
      rw [recordReceipt_members] at hf
      rcases failed_of_set hf with ⟨r',hr',hf'⟩ | hf
      · simp only [Option.some.injEq] at hr'
        subst hr'
        simp [ho] at hf'
      · have := g.failed_closed hf
        simpa [ChordDelivery.Closed] using this
  | memberComplete i m r now payload hm hr ho hs hb =>
    refine ⟨?_,?_,?_,?_⟩
    · rw [readyCallback_members]
      exact recordReceipt_guard g i m r now
    · intro _
      rw [readyCallback_members]
      exact scanReceipts_complete hs
    · intro _
      rw [readyCallback_callbackPayload]
      split
      · exact buildChordCallbackPayload_ne_nil hcodec hb
      · rename_i hne
        simpa using hne
    · rintro ⟨x,hx,r',hr',hf⟩
      rw [readyCallback_members] at hx
      obtain ⟨r'',hr'',hs''⟩ := scanReceipts_complete hs x hx
      rw [hr''] at hr'
      cases hr'
      simp [hs''] at hf
  | claimCallback owner expiresAt now ha =>
    refine ⟨by simpa using g.receipt_iff,?_,?_,?_⟩
    · intro _
      simpa using g.active_succeeded ha
    · intro _
      simpa using g.active_payload ha
    · intro hf
      have := (g.failed_closed (by simpa using hf)).not_active
      simp [ha] at this
  | callbackPublish outcome now hs =>
    have ha : d.callbackState.active = true := by simp [hs, ChordCallbackState.active]
    refine ⟨by simpa using g.receipt_iff,?_,?_,?_⟩
    · intro _
      simpa using g.active_succeeded ha
    · intro _
      simpa using g.active_payload ha
    · intro hf
      have := (g.failed_closed (by simpa using hf)).not_active
      simp [ha] at this
  | callbackTerminal outcome now wall ho =>
    exact guard_of_closed (.inl (by simp)) (by simpa using g.receipt_iff)

theorem callbackGuard_step (hcodec : ∀ s b, codec.marshalSignature s = .ok b → b ≠ [])
    {d : ChordDelivery V} (g : CallbackGuard d) (t : ChordTransition V) :
    CallbackGuard (chordStep codec d t) := by
  rcases chordStep_move codec d t with h | h
  · rwa [h]
  · exact callbackGuard_move hcodec g h

theorem callbackGuard_reachable (hcodec : ∀ s b, codec.marshalSignature s = .ok b → b ≠ [])
    {d : ChordDelivery V} (h : ChordReachable codec d) : CallbackGuard d :=
  @Runs.Reachable.invariant _ _ ChordInitial (chordStep codec) CallbackGuard
    (fun _ hs => callbackGuard_initial hs) (fun _ t g => callbackGuard_step hcodec g t) d h

/-- On every reachable delivery an active callback rests on SUCCESS receipts from all
members and on a payload, and a FAILURE receipt leaves the callback closed, so no
callback claim is granted. -/
theorem callback_only_after_all_succeeded
    (hcodec : ∀ s b, codec.marshalSignature s = .ok b → b ≠ []) {d : ChordDelivery V}
    (h : ChordReachable codec d) :
    ((d.callbackState = .ready ∨ d.callbackState = .leased ∨ d.callbackState = .published ∨
        d.callbackState = .publishUnknown) →
      (∀ m ∈ d.members, ∃ r, m.receipt = some r ∧ r.outcome = .success) ∧
        d.callbackPayload ≠ []) ∧
    ((∃ m ∈ d.members, ∃ r, m.receipt = some r ∧ r.outcome = .failure) →
      (d.callbackState = .suppressed ∨ d.callbackState = .delivered) ∧
        ∀ claim wall, (claimChordCallback d claim wall).2.2.1 = false) := by
  have g := callbackGuard_reachable hcodec h
  constructor
  · intro hs
    have ha : d.callbackState.active = true := by
      rcases hs with hs | hs | hs | hs <;> simp [hs, ChordCallbackState.active]
    exact ⟨g.active_succeeded ha, g.active_payload ha⟩
  · intro hf
    have hc : d.Closed := g.failed_closed hf
    exact ⟨hc.symm, fun claim wall => claimChordCallback_unclaimed_of_closed hc claim wall⟩

end

/-- The sample chord after its member has recorded a SUCCESS receipt. -/
theorem callback_only_after_all_succeeded_sample :
    (∀ s b, (sampleCodec []).marshalSignature s = .ok b → b ≠ []) ∧
    ChordReachable (sampleCodec []) (sampleRun [] [.applyChordMemberTerminal 0 "t" .success none ⟨2⟩ ⟨2⟩]) ∧
    (let d := sampleRun [] [.applyChordMemberTerminal 0 "t" .success none ⟨2⟩ ⟨2⟩]
    ((d.callbackState = .ready ∨ d.callbackState = .leased ∨ d.callbackState = .published ∨
        d.callbackState = .publishUnknown) →
      (∀ m ∈ d.members, ∃ r, m.receipt = some r ∧ r.outcome = .success) ∧
        d.callbackPayload ≠ []) ∧
    ((∃ m ∈ d.members, ∃ r, m.receipt = some r ∧ r.outcome = .failure) →
      (d.callbackState = .suppressed ∨ d.callbackState = .delivered) ∧
        ∀ claim wall, (claimChordCallback d claim wall).2.2.1 = false)) :=
  ⟨sampleCodec_marshalSignature_ne_nil [], sampleRun_reachable [] _,
    callback_only_after_all_succeeded (sampleCodec_marshalSignature_ne_nil []) (sampleRun_reachable [] _)⟩

end Gkit.Chord
