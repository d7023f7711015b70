import Gkit.Chord.Delivery
import Gkit.Library.Runs

/-!
The seven transition functions of `durable_chord.go` and the store step of the Redis
backend's `updateChordDelivery`. Each Go function mutates the delivery through its
pointer and may still return an error or `claimed = false` afterwards, so each model
returns the mutated delivery beside the Go results. Every `now.IsZero()` fallback to
`time.Now()` reads the argument `wall`.
-/

namespace Gkit.Chord

variable {V Sig : Type}

structure ChordMemberClaim where
  ordinal : Int
  owner : String
  now : Time
  leaseDuration : Int
deriving DecidableEq, Repr

structure ChordMemberLease where
  deliveryKey : String
  ordinal : Int
  taskID : String
  payload : Bytes
  owner : String
  version : Int
  expiresAt : Time
deriving DecidableEq, Repr

structure ChordCallbackClaim where
  owner : String
  now : Time
  leaseDuration : Int
deriving DecidableEq, Repr

structure ChordCallbackLease where
  deliveryKey : String
  payload : Bytes
  owner : String
  version : Int
  expiresAt : Time
deriving DecidableEq, Repr

structure ChordPublishOutcome where
  kind : ChordPublishOutcomeKind
  now : Time
  confirmationDeadline : Time
  nextAttemptAt : Time
  error : String
deriving DecidableEq, Repr

/-- The zero `ChordMemberLease{}` returned beside an error or a refusal. -/
def ChordMemberLease.zero : ChordMemberLease := ⟨"",0,"",[],"",0,.zero⟩

def ChordCallbackLease.zero : ChordCallbackLease := ⟨"",[],"",0,.zero⟩

def prepareChordMembers (d : ChordDelivery V) (now : Time) : ChordDelivery V :=
  { d with
    members := d.members.map fun m =>
      if m.state = .setup then { m with state := .ready, version := wrapInt64 (m.version + 1) } else m
    version := wrapInt64 (d.version + 1)
    updatedAt := now }

/-- `duration := x.LeaseDuration; if duration <= 0 { duration = 30 * time.Second }`. -/
def leaseDurationOrDefault (duration : Int) : Int :=
  if duration ≤ 0 then 30 * second else duration

/-- The member record a successful claim writes. -/
def leasedMember (member : ChordMemberPublication V) (owner : String) (expiresAt : Time) :
    ChordMemberPublication V :=
  { member with
    state := .leased, leaseOwner := owner, leaseExpiresAt := expiresAt,
    version := wrapInt64 (member.version + 1), attempts := member.attempts + 1 }

/-- The common tail of `ClaimChordMember` once the state switch has let the claim
through; `member` already carries any reset to READY, which is written back even
when the next-attempt gate then refuses. -/
def leaseChordMember (d : ChordDelivery V) (i : Nat) (member : ChordMemberPublication V)
    (claim : ChordMemberClaim) (now : Time) :
    ChordDelivery V × ChordMemberLease × Bool × Option ChordError :=
  if member.nextAttemptAt.After now then (d.setMember i member, .zero, false, none)
  else
    let leased := leasedMember member claim.owner (now.Add (leaseDurationOrDefault claim.leaseDuration))
    ({ d.setMember i leased with
        memberPublicationStarted := true, version := wrapInt64 (d.version + 1), updatedAt := now },
      { deliveryKey := d.deliveryKey, ordinal := leased.ordinal, taskID := leased.taskID,
        payload := leased.payload, owner := claim.owner, version := leased.version,
        expiresAt := leased.leaseExpiresAt },
      true, none)

def claimChordMember (d : ChordDelivery V) (claim : ChordMemberClaim) (wall : Time) :
    ChordDelivery V × ChordMemberLease × Bool × Option ChordError :=
  match d.member? claim.ordinal with
  | none => (d, .zero, false, some .notFound)
  | some (i, member) =>
    let now := nowOr claim.now wall
    match member.state with
    | .leased =>
      if member.leaseExpiresAt.After now then (d, .zero, false, none)
      else leaseChordMember d i { member with state := .ready } claim now
    | .published | .publishUnknown =>
      if member.confirmationDeadline.After now then (d, .zero, false, none)
      else leaseChordMember d i { member with state := .ready } claim now
    | .ready => leaseChordMember d i member claim now
    | .setup | .terminal => (d, .zero, false, none)

/-- The member record after a publish outcome of a given kind, before the version bump. -/
def memberAfterPublish (member : ChordMemberPublication V) (outcome : ChordPublishOutcome)
    (now : Time) : ChordMemberPublication V :=
  let member := { member with
    leaseOwner := "", leaseExpiresAt := .zero,
    lastError := chordErrorSummary "member_publish" outcome.kind outcome.error }
  let member := match outcome.kind with
    | .succeeded => { member with
        state := .published,
        confirmationDeadline := deadlineOrDefault outcome.confirmationDeadline
          (now.Add (30 * second)) }
    | .unknown => { member with
        state := .publishUnknown,
        confirmationDeadline := deadlineOrDefault outcome.confirmationDeadline
          (now.Add (30 * second)) }
    | .rejected => { member with
        state := .terminal,
        receipt := some { taskID := member.taskID, outcome := .failure, results := none } }
  if outcome.nextAttemptAt.IsZero then member
  else { member with nextAttemptAt := outcome.nextAttemptAt }

/-- The stored delivery after an accepted member publish outcome. -/
def recordMemberPublish (d : ChordDelivery V) (i : Nat) (member : ChordMemberPublication V)
    (outcome : ChordPublishOutcome) (now wall : Time) : ChordDelivery V :=
  -- Only a rejected publish records a terminal outcome for the callback.
  let d := if outcome.kind = .rejected then setChordSuppressed d now wall else d
  let member := memberAfterPublish member outcome now
  { d.setMember i { member with version := wrapInt64 (member.version + 1) } with
    version := wrapInt64 (d.version + 1), updatedAt := now }

def applyChordMemberPublishOutcome (d : ChordDelivery V) (lease : ChordMemberLease)
    (outcome : ChordPublishOutcome) (wall : Time) : ChordDelivery V × Option ChordError :=
  match d.member? lease.ordinal with
  | none => (d, some .notFound)
  | some (i, member) =>
    if member.state ≠ .leased ∨ member.leaseOwner ≠ lease.owner ∨
        member.version ≠ lease.version then (d, some .leaseLost)
    else (recordMemberPublish d i member outcome (nowOr outcome.now wall) wall, none)

/-- `json.Marshal` of a `*ChordMemberReceipt` with its error dropped, as
`existing, _ :=` does; the fields are encoded in declaration order under their tags. -/
def marshalReceipt (codec : TaskCodec V Sig) (r : ChordMemberReceipt V) : Bytes :=
  match codec.marshalResults r.results with
  | .error _ => []
  | .ok body => ascii "\x7b\"task_id\":" ++ jsonString r.taskID ++ ascii ",\"outcome\":" ++
      jsonString r.outcome.toString ++ ascii ",\"results\":" ++ body ++ ascii "\x7d"

/-- Where the receipt loop of `ApplyChordMemberTerminal` stops. -/
inductive ReceiptScan
  | missing | failed | complete
deriving DecidableEq, Repr

def scanReceipts : List (ChordMemberPublication V) → ReceiptScan
  | [] => .complete
  | m :: ms =>
    match m.receipt with
    | none => .missing
    | some r => if r.outcome = .failure then .failed else scanReceipts ms

/-- The callback made READY, keeping a payload an earlier completion stored. -/
def readyCallback (d : ChordDelivery V) (payload : Bytes) : ChordDelivery V :=
  let d := if d.callbackPayload.isEmpty then { d with callbackPayload := payload } else d
  { d with callbackState := .ready, callbackVersion := wrapInt64 (d.callbackVersion + 1) }

/-- The end of `ApplyChordMemberTerminal` after a SUCCESS receipt was recorded: the
callback becomes READY once every member holds a receipt and none failed. -/
def completeChord (codec : TaskCodec V Sig) (d : ChordDelivery V) (now wall : Time) :
    ChordDelivery V × Option ChordError :=
  match scanReceipts d.members with
  | .missing => (d, none)
  | .failed => (setChordSuppressed d now wall, none)
  | .complete =>
    match buildChordCallbackPayload codec d with
    | .error e => (d, some e)
    | .ok payload => (readyCallback d payload, none)

/-- The delivery with a first receipt written to member `i`. -/
def recordReceipt (d : ChordDelivery V) (i : Nat) (member : ChordMemberPublication V)
    (receipt : ChordMemberReceipt V) (now : Time) : ChordDelivery V :=
  let member := { member with
    state := .terminal, leaseOwner := "", leaseExpiresAt := .zero, receipt := some receipt,
    version := wrapInt64 (member.version + 1) }
  { d.setMember i member with version := wrapInt64 (d.version + 1), updatedAt := now }

def applyChordMemberTerminal (codec : TaskCodec V Sig) (d : ChordDelivery V) (ordinal : Int)
    (taskID : String) (outcome : MemberTerminalOutcome) (results : Results V)
    (now wall : Time) : ChordDelivery V × Option ChordError :=
  match d.member? ordinal with
  | none => (d, some .notFound)
  | some (i, member) =>
    if member.taskID ≠ taskID then (d, some .receiptConflict)
    else
      match cloneChordResults codec results with
      | .error e => (d, some e)
      | .ok copyResults =>
        let candidate : ChordMemberReceipt V :=
          { taskID := taskID, outcome := outcome, results := copyResults }
        match member.receipt with
        | some receipt =>
          if marshalReceipt codec receipt = marshalReceipt codec candidate then (d, none)
          else (d, some .receiptConflict)
        | none =>
          let d := recordReceipt d i member candidate now
          if outcome = .failure then (setChordSuppressed d now wall, none)
          else completeChord codec d now wall

/-- The callback fields a successful callback claim writes. -/
def leasedCallback (d : ChordDelivery V) (owner : String) (expiresAt now : Time) :
    ChordDelivery V :=
  { d with
    callbackState := .leased, callbackLeaseOwner := owner, callbackLeaseExpiresAt := expiresAt,
    callbackVersion := wrapInt64 (d.callbackVersion + 1), callbackAttempts := d.callbackAttempts + 1,
    version := wrapInt64 (d.version + 1), updatedAt := now }

def leaseChordCallback (d : ChordDelivery V) (claim : ChordCallbackClaim) (now : Time) :
    ChordDelivery V × ChordCallbackLease × Bool × Option ChordError :=
  if d.callbackNextAttemptAt.After now then (d, .zero, false, none)
  else
    let d := leasedCallback d claim.owner (now.Add (leaseDurationOrDefault claim.leaseDuration)) now
    (d, { deliveryKey := d.deliveryKey, payload := d.callbackPayload, owner := claim.owner,
          version := d.callbackVersion, expiresAt := d.callbackLeaseExpiresAt }, true, none)

def claimChordCallback (d : ChordDelivery V) (claim : ChordCallbackClaim) (wall : Time) :
    ChordDelivery V × ChordCallbackLease × Bool × Option ChordError :=
  let now := nowOr claim.now wall
  match d.callbackState with
  | .leased =>
    if d.callbackLeaseExpiresAt.After now then (d, .zero, false, none)
    else leaseChordCallback { d with callbackState := .ready } claim now
  | .published | .publishUnknown =>
    if d.callbackConfirmationAt.After now then (d, .zero, false, none)
    else leaseChordCallback { d with callbackState := .ready } claim now
  | .ready => leaseChordCallback d claim now
  | .waiting | .delivered | .suppressed => (d, .zero, false, none)

/-- The stored delivery after an accepted callback publish outcome. -/
def recordCallbackPublish (d : ChordDelivery V) (outcome : ChordPublishOutcome) (now : Time) :
    ChordDelivery V :=
  let d := { d with
    callbackLeaseOwner := "", callbackLeaseExpiresAt := .zero,
    callbackLastError := chordErrorSummary "callback_publish" outcome.kind outcome.error }
  let d := match outcome.kind with
    | .succeeded => { d with
        callbackState := .published,
        callbackConfirmationAt := deadlineOrDefault outcome.confirmationDeadline
          (now.Add (30 * second)) }
    | .unknown => { d with
        callbackState := .publishUnknown,
        callbackConfirmationAt := deadlineOrDefault outcome.confirmationDeadline
          (now.Add (30 * second)) }
    | .rejected => { d with
        callbackState := .ready,
        callbackNextAttemptAt := deadlineOrDefault outcome.nextAttemptAt (now.Add second) }
  { d with callbackVersion := wrapInt64 (d.callbackVersion + 1), version := wrapInt64 (d.version + 1), updatedAt := now }

def applyChordCallbackPublishOutcome (d : ChordDelivery V) (lease : ChordCallbackLease)
    (outcome : ChordPublishOutcome) (wall : Time) : ChordDelivery V × Option ChordError :=
  if d.callbackState ≠ .leased ∨ d.callbackLeaseOwner ≠ lease.owner ∨
      d.callbackVersion ≠ lease.version then (d, some .leaseLost)
  else (recordCallbackPublish d outcome (nowOr outcome.now wall), none)

/-- The stored delivery after the first callback terminal record. -/
def deliverCallback (d : ChordDelivery V) (outcome : CallbackTerminalOutcome) (now wall : Time) :
    ChordDelivery V :=
  let d := setChordTerminalTime
    { d with callbackState := .delivered, terminalOutcome := some outcome } now wall
  { d with callbackVersion := wrapInt64 (d.callbackVersion + 1), version := wrapInt64 (d.version + 1), updatedAt := now }

def applyChordCallbackTerminal (d : ChordDelivery V) (outcome : CallbackTerminalOutcome)
    (now wall : Time) : ChordDelivery V × Option ChordError :=
  if d.callbackState = .delivered then
    if d.terminalOutcome = some outcome then (d, none) else (d, some .terminalConflict)
  else if d.callbackState = .suppressed then (d, some .terminalConflict)
  else (deliverCallback d outcome now wall, none)

/-- One call of a transition function, with every argument and clock reading it takes. -/
inductive ChordTransition (V : Type)
  | prepareChordMembers (now : Time)
  | claimChordMember (claim : ChordMemberClaim) (wall : Time)
  | applyChordMemberPublishOutcome (lease : ChordMemberLease) (outcome : ChordPublishOutcome)
      (wall : Time)
  | applyChordMemberTerminal (ordinal : Int) (taskID : String) (outcome : MemberTerminalOutcome)
      (results : Results V) (now wall : Time)
  | claimChordCallback (claim : ChordCallbackClaim) (wall : Time)
  | applyChordCallbackPublishOutcome (lease : ChordCallbackLease)
      (outcome : ChordPublishOutcome) (wall : Time)
  | applyChordCallbackTerminal (outcome : CallbackTerminalOutcome) (now wall : Time)

/-- `updateChordDelivery` writes the mutated record only when the callback reported a
change and no error. -/
def commitChord (d d' : ChordDelivery V) (changed : Bool) (err : Option ChordError) :
    ChordDelivery V :=
  if err = none ∧ changed = true then d' else d

/-- The stored delivery after one backend call (`ReconcileChord`, `ClaimMemberPublication`,
`RecordMemberPublishOutcome`, `RecordMemberTerminal`, `ClaimCallbackPublication`,
`RecordCallbackPublishOutcome`, `RecordCallbackTerminal` of `BackendRedis`). -/
def chordStep (codec : TaskCodec V Sig) (d : ChordDelivery V) : ChordTransition V → ChordDelivery V
  | .prepareChordMembers now => prepareChordMembers d now
  | .claimChordMember claim wall =>
    let r := claimChordMember d claim wall
    commitChord d r.1 r.2.2.1 r.2.2.2
  | .applyChordMemberPublishOutcome lease outcome wall =>
    let r := applyChordMemberPublishOutcome d lease outcome wall
    commitChord d r.1 true r.2
  | .applyChordMemberTerminal ordinal taskID outcome results now wall =>
    let r := applyChordMemberTerminal codec d ordinal taskID outcome results now wall
    commitChord d r.1 (r.1.version != d.version) r.2
  | .claimChordCallback claim wall =>
    let r := claimChordCallback d claim wall
    commitChord d r.1 r.2.2.1 r.2.2.2
  | .applyChordCallbackPublishOutcome lease outcome wall =>
    let r := applyChordCallbackPublishOutcome d lease outcome wall
    commitChord d r.1 true r.2
  | .applyChordCallbackTerminal outcome now wall =>
    let r := applyChordCallbackTerminal d outcome now wall
    commitChord d r.1 (r.1.version != d.version) r.2

/-- A freshly registered delivery, as `RegisterChord` stores it. -/
def ChordInitial (d : ChordDelivery V) : Prop :=
  ∃ reg owner now, d = newChordDelivery reg owner now

/-- The deliveries some run of backend calls produces from a registration. -/
def ChordReachable (codec : TaskCodec V Sig) (d : ChordDelivery V) : Prop :=
  Runs.Reachable ChordInitial (chordStep codec) d

/-- A run of the sample chord registered by "owner" at time 1. -/
def sampleRun (known : List (Results GoValue)) (ts : List (ChordTransition GoValue)) :
    ChordDelivery GoValue :=
  Runs.run (chordStep (sampleCodec known)) (newChordDelivery sampleRegistration "owner" ⟨1⟩) ts

theorem sampleRun_reachable (known : List (Results GoValue)) (ts : List (ChordTransition GoValue)) :
    ChordReachable (sampleCodec known) (sampleRun known ts) :=
  (Runs.Reachable.init ⟨sampleRegistration,"owner",⟨1⟩,rfl⟩).run ts

end Gkit.Chord
