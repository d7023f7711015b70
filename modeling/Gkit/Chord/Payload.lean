import Gkit.Chord.CallbackGuard
import Gkit.Chord.Receipts

/-!
The callback payload. `ApplyChordMemberTerminal` builds it when the last SUCCESS receipt
arrives and stores it only while none is stored; no other step writes it. Receipts are
written once and the template never changes, so a stored payload stays what
`buildChordCallbackPayload` gives on the delivery as it stands: the template's `Args`
followed by the members' results, in member order. The invariant `PayloadBuilt` says so,
and `callbackPayload_move` that a stored payload is never replaced.
-/

namespace Gkit.Chord

variable {V Sig : Type}

/-- The callback argument `task.Arg{Type: result.Type, Value: result.Value}`. -/
def resultArg (r : TaskResult V) : Arg V := { type := r.type, key := "", value := r.value }

/-- The results of the members' receipts, in member order. -/
def receiptResults (ms : List (ChordMemberPublication V)) : List (Option (TaskResult V)) :=
  ms.flatMap fun m => (m.receipt.map fun r => r.results.toList).getD []

/-! ### What `buildChordCallbackPayload` reads -/

/-- A `mapM` into `Except` that succeeds pairs every element with its image. -/
theorem mapM_ok_forall₂ {α β ε : Type} {f : α → Except ε β} :
    ∀ {l : List α} {ys : List β}, l.mapM f = .ok ys → List.Forall₂ (fun a b => f a = .ok b) l ys
  | [], ys, h => by
    rw [List.mapM_nil] at h
    cases h
    exact .nil
  | a :: l, ys, h => by
    rw [List.mapM_cons] at h
    cases hfa : f a with
    | error e => simp [hfa, bind, Except.bind] at h
    | ok b =>
      cases hl : l.mapM f with
      | error e => simp [hfa, hl, bind, Except.bind] at h
      | ok bs =>
        simp only [hfa, hl, bind, Except.bind, pure, Except.pure, Except.ok.injEq] at h
        subst h
        exact .cons hfa (mapM_ok_forall₂ hl)

/-- The results a member contributes are all present, and become their arguments. -/
theorem forall₂_resultArg {f : Option (TaskResult V) → Except ChordError (Arg V)}
    (hnone : ∀ b, f none ≠ .ok b) (hsome : ∀ r b, f (some r) = .ok b → b = resultArg r) :
    ∀ {l : List (Option (TaskResult V))} {ys : List (Arg V)},
      List.Forall₂ (fun a b => f a = .ok b) l ys → ∃ rs : List (TaskResult V), l = rs.map some ∧ ys = rs.map resultArg
  | [], [], .nil => ⟨[],rfl,rfl⟩
  | none :: _, _ :: _, .cons h _ => absurd h (hnone _)
  | some r :: _, _ :: _, .cons h hs => by
    obtain ⟨rs,rfl,rfl⟩ := forall₂_resultArg hnone hsome hs
    exact ⟨r :: rs,rfl,by rw [hsome r _ h]; rfl⟩

/-- When the members' results are all there, `memberResultArgs` lists them in member order
as arguments. -/
theorem memberResultArgs_ok :
    ∀ {ms : List (ChordMemberPublication V)} {extra : List (Arg V)},
      memberResultArgs ms = .ok extra →
        (∀ m ∈ ms, m.receipt.isSome = true) ∧
          ∃ rs : List (TaskResult V), receiptResults ms = rs.map some ∧ extra = rs.map resultArg
  | [], extra, h => by
    cases h
    exact ⟨by simp,[],rfl,rfl⟩
  | m :: ms, extra, h => by
    rw [memberResultArgs] at h
    cases hr : m.receipt with
    | none => simp [hr, bind, Except.bind, throw, throwThe, MonadExceptOf.throw] at h
    | some r =>
      simp only [hr, bind, Except.bind, pure, Except.pure] at h
      split at h
      · cases h
      · rename_i mine hmine
        split at h
        · cases h
        · rename_i rest hrest
          cases h
          obtain ⟨hall,rs',hrs',rfl⟩ := memberResultArgs_ok hrest
          obtain ⟨rs,hrs,rfl⟩ := forall₂_resultArg (fun b h => by cases h)
            (fun r b h => by cases h; rfl) (mapM_ok_forall₂ hmine)
          refine ⟨?_,rs ++ rs',?_,by rw [List.map_append]⟩
          · intro x hx
            rcases List.mem_cons.mp hx with rfl | hx
            · simp [hr]
            · exact hall x hx
          · rw [receiptResults,List.flatMap_cons,hr,Option.map_some,Option.getD_some,hrs,
              List.map_append]
            exact congrArg _ hrs'

/-- `memberResultArgs` reads the receipts only. -/
theorem memberResultArgs_congr :
    ∀ {ms ms' : List (ChordMemberPublication V)},
      ms.map (·.receipt) = ms'.map (·.receipt) → memberResultArgs ms = memberResultArgs ms'
  | [], [], _ => rfl
  | m :: ms, m' :: ms', h => by
    obtain ⟨hm,hms⟩ := List.cons.inj h
    have hm : m.receipt = m'.receipt := hm
    rw [memberResultArgs,memberResultArgs,hm,memberResultArgs_congr hms]

theorem buildChordCallbackPayload_congr {codec : TaskCodec V Sig} {d d' : ChordDelivery V}
    (ht : d'.callbackTemplate = d.callbackTemplate)
    (hm : d'.members.map (·.receipt) = d.members.map (·.receipt)) :
    buildChordCallbackPayload codec d' = buildChordCallbackPayload codec d := by
  unfold buildChordCallbackPayload
  rw [ht,memberResultArgs_congr hm]

/-- What a built payload is: the template decoded, its `Args` followed by the members'
results, encoded again. -/
theorem buildChordCallbackPayload_ok {codec : TaskCodec V Sig} {d : ChordDelivery V}
    {payload : Bytes} (h : buildChordCallbackPayload codec d = .ok payload) :
    (∀ m ∈ d.members, m.receipt.isSome = true) ∧
      ∃ (sig : Sig) (rs : List (TaskResult V)), codec.unmarshalSignature d.callbackTemplate = .ok sig ∧
        receiptResults d.members = rs.map some ∧
        codec.marshalSignature (codec.setArgs sig ((codec.args sig).appendAll (rs.map resultArg))) =
          .ok payload := by
  unfold buildChordCallbackPayload at h
  cases hs : codec.unmarshalSignature d.callbackTemplate with
  | error e => simp [hs, Except.mapError, bind, Except.bind] at h
  | ok sig =>
    cases ha : memberResultArgs d.members with
    | error e => simp [hs, ha, Except.mapError, bind, Except.bind] at h
    | ok extra =>
      obtain ⟨hall,rs,hrs,rfl⟩ := memberResultArgs_ok ha
      refine ⟨hall,sig,rs,rfl,hrs,?_⟩
      cases hm : codec.marshalSignature (codec.setArgs sig ((codec.args sig).appendAll
          (rs.map resultArg))) with
      | error e => simp [hs, ha, hm, Except.mapError, bind, Except.bind] at h
      | ok b =>
        simp only [hs, ha, hm, Except.mapError, bind, Except.bind, Except.ok.injEq] at h
        rw [h]

/-! ### The template never changes -/

@[simp] theorem setChordSuppressed_callbackTemplate (d : ChordDelivery V) (now wall : Time) :
    (setChordSuppressed d now wall).callbackTemplate = d.callbackTemplate := by
  by_cases h : d.Closed
  · rw [setChordSuppressed_of_closed h]
  · rw [setChordSuppressed_of_open h,setChordTerminalTime_eq]

@[simp] theorem readyCallback_callbackTemplate (d : ChordDelivery V) (payload : Bytes) :
    (readyCallback d payload).callbackTemplate = d.callbackTemplate := by
  unfold readyCallback; split <;> rfl

@[simp] theorem recordCallbackPublish_callbackTemplate (d : ChordDelivery V)
    (outcome : ChordPublishOutcome) (now : Time) :
    (recordCallbackPublish d outcome now).callbackTemplate = d.callbackTemplate := by
  unfold recordCallbackPublish; split <;> rfl

@[simp] theorem deliverCallback_callbackTemplate (d : ChordDelivery V)
    (outcome : CallbackTerminalOutcome) (now wall : Time) :
    (deliverCallback d outcome now wall).callbackTemplate = d.callbackTemplate := by
  simp [deliverCallback, setChordTerminalTime_eq]

/-! ### The invariant -/

/-- A stored payload is what `buildChordCallbackPayload` gives on the delivery as it stands,
and every member holds a receipt behind it. -/
structure PayloadBuilt (codec : TaskCodec V Sig) (d : ChordDelivery V) : Prop where
  receipted : d.callbackPayload ≠ [] → ∀ m ∈ d.members, m.receipt.isSome = true
  built : d.callbackPayload ≠ [] → buildChordCallbackPayload codec d = .ok d.callbackPayload

section
variable {codec : TaskCodec V Sig}

theorem payloadBuilt_initial {d : ChordDelivery V} (h : ChordInitial d) : PayloadBuilt codec d := by
  obtain ⟨reg,owner,now,rfl⟩ := h
  exact ⟨fun h => absurd rfl h,fun h => absurd rfl h⟩

/-- A step that keeps the payload, the template and every receipt keeps the invariant. -/
theorem PayloadBuilt.of_receipts {d d' : ChordDelivery V} (g : PayloadBuilt codec d)
    (hp : d'.callbackPayload = d.callbackPayload) (ht : d'.callbackTemplate = d.callbackTemplate)
    (hm : d'.members.map (·.receipt) = d.members.map (·.receipt)) : PayloadBuilt codec d' where
  receipted hne x hx := by
    have hx' : x.receipt ∈ d.members.map (·.receipt) := hm ▸ List.mem_map_of_mem hx
    obtain ⟨m,hm',hmx⟩ := List.mem_map.mp hx'
    rw [← hmx]
    exact g.receipted (hp ▸ hne) m hm'
  built hne := by
    rw [buildChordCallbackPayload_congr ht hm,hp]
    exact g.built (hp ▸ hne)

theorem PayloadBuilt.of_unreceipted {d d' : ChordDelivery V} (g : PayloadBuilt codec d) {i : Nat}
    {m : ChordMemberPublication V} (hm : d.members[i]? = some m) (hr : m.receipt = none)
    (hp : d'.callbackPayload = d.callbackPayload) : PayloadBuilt codec d' := by
  have hnil : d.callbackPayload = [] := by
    by_contra hne
    have := g.receipted hne m (List.mem_of_getElem? hm)
    simp [hr] at this
  exact ⟨fun hne => absurd (hp.trans hnil) hne,fun hne => absurd (hp.trans hnil) hne⟩

theorem prepareChordMembers_receipts (d : ChordDelivery V) (now : Time) :
    (prepareChordMembers d now).members.map (·.receipt) = d.members.map (·.receipt) := by
  rw [prepareChordMembers_members,List.map_map]
  refine List.map_congr_left fun m _ => ?_
  show (if m.state = .setup then { m with state := .ready, version := wrapInt64 (m.version + 1) } else m).receipt =
    m.receipt
  split <;> rfl

theorem payloadBuilt_move {d d' : ChordDelivery V} (hM : ReceiptsMatch d) (g : PayloadBuilt codec d)
    (hmove : ChordMove codec d d') : PayloadBuilt codec d' := by
  cases hmove with
  | prepare now => exact g.of_receipts rfl rfl (prepareChordMembers_receipts d now)
  | claimMember i m owner expiresAt now hm hs => exact g.of_unreceipted hm (hM.receipt_none hm hs.2) rfl
  | memberPublish i m outcome now wall hm hs =>
    exact g.of_unreceipted hm (hM.receipt_none hm (by simp [hs]))
      (recordMemberPublish_callback d i m outcome now wall).2
  | memberFailed i m r now wall hm hr hf => exact g.of_unreceipted hm hr (by simp)
  | memberPending i m r now hm hr ho hs => exact g.of_unreceipted hm hr rfl
  | memberComplete i m r now payload hm hr ho hs hb =>
    have hnil : d.callbackPayload = [] := by
      by_contra hne
      have := g.receipted hne m (List.mem_of_getElem? hm)
      simp [hr] at this
    have hp : (readyCallback (recordReceipt d i m r now) payload).callbackPayload = payload := by
      rw [readyCallback_callbackPayload,recordReceipt_callbackPayload,hnil]
      rfl
    refine ⟨fun _ x hx => ?_,fun _ => ?_⟩
    · rw [readyCallback_members] at hx
      obtain ⟨r',hr',-⟩ := scanReceipts_complete hs x hx
      simp [hr']
    · rw [hp,buildChordCallbackPayload_congr (readyCallback_callbackTemplate _ _)
        (by rw [readyCallback_members])]
      exact hb
  | claimCallback owner expiresAt now ha => exact g.of_receipts rfl rfl rfl
  | callbackPublish outcome now hs =>
    exact g.of_receipts (by simp) (by simp) (by rw [recordCallbackPublish_members])
  | callbackTerminal outcome now wall ho =>
    exact g.of_receipts (by simp) (by simp) (by rw [deliverCallback_members])

theorem payloadBuilt_step {d : ChordDelivery V} (hM : ReceiptsMatch d) (g : PayloadBuilt codec d)
    (t : ChordTransition V) : PayloadBuilt codec (chordStep codec d t) := by
  rcases chordStep_move codec d t with h | h
  · rwa [h]
  · exact payloadBuilt_move hM g h

theorem payloadBuilt_reachable {d : ChordDelivery V} (h : ChordReachable codec d) :
    PayloadBuilt codec d := by
  -- carried together with the receipt correspondence the member cases need
  have := @Runs.Reachable.invariant _ _ ChordInitial (chordStep codec)
    (fun d => ReceiptsMatch d ∧ PayloadBuilt codec d)
    (fun s hs => ⟨@receiptsMatch_reachable V Sig codec s (Runs.Reachable.init hs),
      payloadBuilt_initial hs⟩)
    (fun _ t ⟨hM,g⟩ => ⟨receiptsMatch_step hM t,payloadBuilt_step hM g t⟩) d h
  exact this.2

/-! ### A stored payload is never replaced -/

theorem callbackPayload_move {d d' : ChordDelivery V} (hmove : ChordMove codec d d')
    (hne : d.callbackPayload ≠ []) : d'.callbackPayload = d.callbackPayload := by
  cases hmove with
  | prepare now => rfl
  | claimMember i m owner expiresAt now hm hs => rfl
  | memberPublish i m outcome now wall hm hs => exact (recordMemberPublish_callback d i m outcome now wall).2
  | memberFailed i m r now wall hm hr hf => simp
  | memberPending i m r now hm hr ho hs => rfl
  | memberComplete i m r now payload hm hr ho hs hb =>
    rw [readyCallback_callbackPayload,recordReceipt_callbackPayload,
      if_neg (by rwa [List.isEmpty_iff])]
  | claimCallback owner expiresAt now ha => rfl
  | callbackPublish outcome now hs => simp
  | callbackTerminal outcome now wall ho => simp

theorem callbackPayload_run {d : ChordDelivery V} (hne : d.callbackPayload ≠ [])
    (ts : List (ChordTransition V)) :
    (Runs.run (chordStep codec) d ts).callbackPayload = d.callbackPayload := by
  refine @Runs.run_relates _ _ (chordStep codec) (fun _ => True)
    (fun d d' => d.callbackPayload ≠ [] → d'.callbackPayload = d.callbackPayload)
    (fun _ _ _ => trivial) (fun _ _ => rfl) ?_ ?_ ts d trivial hne
  · intro s t u hst htu hs
    rw [htu (hst hs ▸ hs),hst hs]
  · intro s t _ hs
    rcases chordStep_move codec s t with h | h
    · rw [h]
    · exact callbackPayload_move h hs

theorem claimChordCallback_payload {d : ChordDelivery V} {claim : ChordCallbackClaim} {wall : Time}
    (h : (claimChordCallback d claim wall).2.2.1 = true) :
    (claimChordCallback d claim wall).2.1.payload = d.callbackPayload := by
  generalize hr : claimChordCallback d claim wall = r at h ⊢
  obtain ⟨d',lease,claimed,err⟩ := r
  cases h
  rw [(claimChordCallback_claimed hr).2.2.2]

/-- On every reachable delivery with a READY callback, the payload is the template with its
`Args` followed by every member's receipt results, in member order; it never changes again,
and every later granted claim hands out exactly it. -/
theorem callbackPayload_fixed_at_ready
    (hcodec : ∀ s b, codec.marshalSignature s = .ok b → b ≠ []) {d : ChordDelivery V}
    (h : ChordReachable codec d) (hready : d.callbackState = .ready) :
    (∀ m ∈ d.members, m.receipt.isSome = true) ∧
      (∃ (sig : Sig) (rs : List (TaskResult V)), codec.unmarshalSignature d.callbackTemplate = .ok sig ∧
        receiptResults d.members = rs.map some ∧
        codec.marshalSignature (codec.setArgs sig ((codec.args sig).appendAll (rs.map resultArg))) =
          .ok d.callbackPayload) ∧
      ∀ ts : List (ChordTransition V),
        (Runs.run (chordStep codec) d ts).callbackPayload = d.callbackPayload ∧
        ∀ claim wall, (claimChordCallback (Runs.run (chordStep codec) d ts) claim wall).2.2.1 = true →
          (claimChordCallback (Runs.run (chordStep codec) d ts) claim wall).2.1.payload =
            d.callbackPayload := by
  have hne : d.callbackPayload ≠ [] :=
    (callbackGuard_reachable hcodec h).active_payload (by simp [hready, ChordCallbackState.active])
  obtain ⟨hall,hbuilt⟩ := buildChordCallbackPayload_ok ((payloadBuilt_reachable h).built hne)
  refine ⟨hall,hbuilt,fun ts => ⟨callbackPayload_run hne ts,fun claim wall hc => ?_⟩⟩
  rw [claimChordCallback_payload hc,callbackPayload_run hne ts]

end

/-- The sample chord once its only member has recorded a SUCCESS receipt. -/
theorem callbackPayload_fixed_at_ready_sample :
    (∀ s b, (sampleCodec []).marshalSignature s = .ok b → b ≠ []) ∧
      ChordReachable (sampleCodec []) (sampleRun [] [.applyChordMemberTerminal 0 "t" .success none ⟨2⟩ ⟨2⟩]) ∧
      (sampleRun [] [.applyChordMemberTerminal 0 "t" .success none ⟨2⟩ ⟨2⟩]).callbackState = .ready ∧
      ((∀ m ∈ (sampleRun [] [.applyChordMemberTerminal 0 "t" .success none ⟨2⟩ ⟨2⟩]).members,
          m.receipt.isSome = true) ∧
        (∃ (sig : Slice (Arg GoValue)) (rs : List (TaskResult GoValue)), (sampleCodec []).unmarshalSignature
            (sampleRun [] [.applyChordMemberTerminal 0 "t" .success none ⟨2⟩ ⟨2⟩]).callbackTemplate =
              .ok sig ∧
          receiptResults (sampleRun [] [.applyChordMemberTerminal 0 "t" .success none ⟨2⟩ ⟨2⟩]).members =
            rs.map some ∧
          (sampleCodec []).marshalSignature ((sampleCodec []).setArgs sig
              (((sampleCodec []).args sig).appendAll (rs.map resultArg))) =
            .ok (sampleRun [] [.applyChordMemberTerminal 0 "t" .success none ⟨2⟩ ⟨2⟩]).callbackPayload) ∧
        ∀ ts : List (ChordTransition GoValue),
          (Runs.run (chordStep (sampleCodec []))
              (sampleRun [] [.applyChordMemberTerminal 0 "t" .success none ⟨2⟩ ⟨2⟩]) ts).callbackPayload =
            (sampleRun [] [.applyChordMemberTerminal 0 "t" .success none ⟨2⟩ ⟨2⟩]).callbackPayload ∧
          ∀ claim wall, (claimChordCallback (Runs.run (chordStep (sampleCodec []))
              (sampleRun [] [.applyChordMemberTerminal 0 "t" .success none ⟨2⟩ ⟨2⟩]) ts) claim wall).2.2.1 =
                true →
            (claimChordCallback (Runs.run (chordStep (sampleCodec []))
              (sampleRun [] [.applyChordMemberTerminal 0 "t" .success none ⟨2⟩ ⟨2⟩]) ts) claim wall).2.1.payload =
              (sampleRun [] [.applyChordMemberTerminal 0 "t" .success none ⟨2⟩ ⟨2⟩]).callbackPayload) := by
  have hready : (sampleRun [] [.applyChordMemberTerminal 0 "t" .success none ⟨2⟩ ⟨2⟩]).callbackState =
      .ready := by decide
  exact ⟨sampleCodec_marshalSignature_ne_nil [],sampleRun_reachable [] _,hready,
    callbackPayload_fixed_at_ready (sampleCodec_marshalSignature_ne_nil []) (sampleRun_reachable [] _)
      hready⟩

end Gkit.Chord
