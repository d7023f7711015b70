import Gkit.Library.Redis
import Gkit.Library.Runs

/-!
The Redis reliable queue of `reliable_queue.go`. A payload waits in the ready list, is
leased under a fresh token into the inflight hash (token ↦ envelope) with its deadline in
the visibility set, and leaves on an acknowledgement, which records the token in the
outcomes set for the retention period. The claim script also repairs orphans found by
`HSCAN` or kept in the repair backlog.

Each Lua script is one atomic step on the six keys. The key-type checks cannot fail on a
state of this type and are left out, and so are `PEXPIRE` and the TTLs it sets. Lua's
`tonumber` is a parameter. An envelope is a ten-digit failure count, `:`, and the payload.
-/

namespace Gkit.Queue

open Redis

abbrev Bytes := List UInt8

def ascii (s : String) : Bytes := s.toList.map Char.toUInt8

/-- A value in a script's reply table. -/
inductive LuaValue
  | int (n : Int)
  | str (s : String)
deriving DecidableEq, Repr

/-- A script's reply: `redis.error_reply(...)`, or the returned table. -/
inductive ScriptReply
  | error (message : String)
  | ok (values : List LuaValue)
deriving DecidableEq, Repr

/-- The status code in the first slot of the reply table. -/
def ScriptReply.code : ScriptReply → Option Int
  | .ok (.int n :: _) => some n
  | _ => none

/-- The six keys of one queue: `KEYS[1]` to `KEYS[6]` of the claim script. -/
structure ReliableState where
  ready : List Bytes
  inflight : Assoc String Bytes
  visibility : ZSet String
  outcomes : ZSet String
  repairCursor : Option String
  repairBacklog : ZSet String
deriving DecidableEq

/-- All six keys absent. -/
def ReliableState.empty : ReliableState :=
  ⟨[],.empty,.empty,.empty,none,.empty⟩

/-! ### Envelopes -/

/-- `string.sub(envelope, 12)`. -/
def envelopePayload (e : Bytes) : Bytes := e.drop 11

/-- The header check the scripts make before they use an envelope. -/
def envelopeValid (tonumber : Bytes → Option Int) (e : Bytes) : Bool :=
  decide (11 ≤ e.length) && e[10]? == some 0x3A && (tonumber (e.take 10)).isSome

/-- `string.format('%010d', n)`: the sign, then the digits padded with zeros to ten
characters. -/
def format010d (n : Int) : Bytes :=
  let digits := ascii (toString n.natAbs)
  let sign := if n < 0 then ascii "-" else []
  sign ++ List.replicate (10 - sign.length - digits.length) 0x30 ++ digits

/-- `'0000000000:' .. payload`, the envelope of a first lease. -/
def freshEnvelope (payload : Bytes) : Bytes := ascii "0000000000:" ++ payload

/-- `^%d+$`. -/
def isDecimal (s : String) : Bool := !s.toList.isEmpty && s.toList.all Char.isDigit

/-! ### The claim script -/

/-- What the claim script reads for one token it repairs, before any write. -/
structure RepairEntry where
  token : String
  envelope : Option Bytes
  outcome : Option Int
  visibility : Option Int
deriving DecidableEq, Repr

def RepairEntry.read (s : ReliableState) (t : String) : RepairEntry :=
  ⟨t,s.inflight.get? t,s.outcomes.get? t,s.visibility.get? t⟩

/-- One turn of the repair loop: a dangling deadline is dropped, an acknowledged
envelope is dropped, an envelope without a deadline goes back to the ready list. -/
def repairOrphan (now : Int) (acc : ReliableState × Bool) (r : RepairEntry) : ReliableState × Bool :=
  let (s,reconciled) := acc
  match r.envelope with
  | none =>
    if r.visibility.isSome then ({ s with visibility := s.visibility.erase r.token },true)
    else (s,reconciled)
  | some envelope =>
    if r.outcome.any (· > now) then
      ({ s with
        visibility := s.visibility.erase r.token, inflight := s.inflight.erase r.token },true)
    else if r.visibility.isNone then
      ({ s with ready := s.ready ++ [envelopePayload envelope], inflight := s.inflight.erase r.token },
        true)
    else (s,reconciled)

/-- One turn of the loop over visible tokens: a deadline whose envelope is gone is dropped. -/
def dropDangling (acc : ReliableState × Bool) (t : String) : ReliableState × Bool :=
  let (s,reconciled) := acc
  if s.inflight.contains t then (s,reconciled)
  else ({ s with visibility := s.visibility.erase t },true)

/-- The writes of the claim script before its `if reconciled then return {3} end`: prune
the expired outcomes, grow or drain the repair backlog, repair the orphans, drop dangling
deadlines and move the cursor. The flag says whether anything recoverable changed. -/
def claimHousekeeping (now : Int) (s : ReliableState) (expired backlogTokens overflow : List String)
    (draining : Bool) (repair : List RepairEntry) (visible : List String) (nextCursor : String) :
    ReliableState × Bool :=
  let s₁ := { s with outcomes := s.outcomes.eraseAll expired }
  let s₂ := if !draining && !overflow.isEmpty then
    { s₁ with repairBacklog := s₁.repairBacklog.addAllNX (overflow.map (·,0)) } else s₁
  let (s₃,reconciled) := repair.foldl (repairOrphan now) (s₂,!expired.isEmpty)
  let s₄ := if draining then
    { s₃ with repairBacklog := s₃.repairBacklog.eraseAll backlogTokens } else s₃
  let (s₅,reconciled) := visible.foldl dropDangling (s₄,reconciled)
  (if draining then s₅ else { s₅ with repairCursor := some nextCursor },reconciled)

/-- The lease the claim script grants once housekeeping changed nothing recoverable: the
oldest expired lease passes to the new token, or else the head of the ready list is leased. -/
def claimLease (s : ReliableState) (token : String) (lease now : Int) (old : Option RepairEntry)
    (payload : Option Bytes) : ReliableState × ScriptReply :=
  match old with
  | some r =>
    if r.outcome.any (· > now) then
      ({ s with visibility := s.visibility.erase r.token, inflight := s.inflight.erase r.token },
        .ok [.int 3])
    else
      match r.envelope with
      | none => ({ s with visibility := s.visibility.erase r.token },.ok [.int 3])
      | some envelope =>
        ({ s with
          inflight := (s.inflight.insert token envelope).erase r.token,
          visibility := (s.visibility.insert token (now + lease)).erase r.token },
          .ok [.int 1,.str token,.str (toString envelope),.str (toString now),
            .str (toString (now + lease))])
  | none =>
    match payload with
    | none => (s,.ok [.int 0,.str (toString now)])
    | some p =>
      ({ s with
        inflight := s.inflight.insert token (freshEnvelope p),
        visibility := s.visibility.insert token (now + lease),
        ready := s.ready.tail },
        .ok [.int 1,.str token,.str (toString (freshEnvelope p)),.str (toString now),
          .str (toString (now + lease))])

/-- `reliableClaimScriptSource` with `KEYS` fixed, `ARGV = [token, lease, outcomeTtl]`,
`TIME = now`, and the fields `scanFields` and cursor `scanCursor` of the reply of
`HSCAN inflight cursor COUNT 128`. -/
def reliableClaim (tonumber : Bytes → Option Int) (s : ReliableState) (token : String)
    (lease outcomeTtl now : Int) (scanCursor : String) (scanFields : List String) :
    ReliableState × ScriptReply :=
  if token = "" ∨ lease ≤ 0 ∨ outcomeTtl ≤ 0 then
    (s,.error "reliable claim: invalid argument")
  else if s.inflight.contains token ∨ s.visibility.contains token ∨ s.outcomes.contains token ∨
      s.repairBacklog.contains token then (s,.ok [.int 2])
  else
    let repairCursor := s.repairCursor.getD "0"
    if !isDecimal repairCursor then (s,.error "reliable claim: invalid repair cursor")
    else
      let expired := s.outcomes.rangeByScore now 128
      let backlogTokens := s.repairBacklog.range 128
      let draining := !backlogTokens.isEmpty
      let nextCursor := if draining then repairCursor else scanCursor
      let repairTokens := if draining then backlogTokens else scanFields.take 128
      let overflow := if draining then [] else scanFields.drop 128
      let repair := repairTokens.map (RepairEntry.read s)
      if repair.any (fun r => r.envelope.any (!envelopeValid tonumber ·)) then
        (s,.error "reliable claim: invalid orphan envelope")
      else
        let visible := s.visibility.range (128 - repair.length)
        let old := (s.visibility.rangeByScore now 1).head?.map (RepairEntry.read s)
        if old.any (fun r => r.envelope.any (!envelopeValid tonumber ·)) then
          (s,.error "reliable claim: invalid envelope")
        else
          -- every validation above precedes the first write
          let (s₆,reconciled) :=
            claimHousekeeping now s expired backlogTokens overflow draining repair visible nextCursor
          if reconciled then (s₆,.ok [.int 3])
          else claimLease s₆ token lease now old s.ready.head?

/-! ### Renew, ack, release, defer -/

/-- `reliableRenewScriptSource`. -/
def reliableRenew (s : ReliableState) (token : String) (lease now : Int) :
    ReliableState × ScriptReply :=
  if token = "" ∨ lease ≤ 0 then (s,.error "reliable renew: invalid argument")
  else
    match s.inflight.get? token, s.visibility.get? token with
    | some _, some score =>
      if score ≤ now then (s,.ok [.int 0,.str (toString now)])
      else
        ({ s with visibility := s.visibility.insert token (now + lease) },
          .ok [.int 1,.str (toString now),.str (toString (now + lease))])
    | _, _ => (s,.ok [.int 0,.str (toString now)])

/-- The normal path of the ack script, after the prior-outcome shortcut. -/
def reliableAckLease (s : ReliableState) (token : String) (retention now : Int) :
    ReliableState × ScriptReply :=
  match s.inflight.get? token, s.visibility.get? token with
  | some _, some score =>
    if score ≤ now then (s,.ok [.int 0,.int 0,.str (toString now)])
    else
      ({ s with
        outcomes := (s.outcomes.eraseAll (s.outcomes.rangeByScore now 128)).insert token (now + retention),
        visibility := s.visibility.erase token, inflight := s.inflight.erase token,
        repairBacklog := s.repairBacklog.erase token },
        .ok [.int 1,.int 0,.str (toString now),.str (toString (now + retention))])
  | _, _ => (s,.ok [.int 0,.int 0,.str (toString now)])

/-- `reliableAckScriptSource`. -/
def reliableAck (s : ReliableState) (token : String) (retention ttl now : Int) :
    ReliableState × ScriptReply :=
  if token = "" ∨ retention ≤ 0 ∨ ttl ≤ retention then (s,.error "reliable ack: invalid argument")
  else
    match s.outcomes.get? token with
    | some prior =>
      if now < prior then
        -- a token acknowledged within the retention answers success again
        ({ s with
          visibility := s.visibility.erase token, inflight := s.inflight.erase token,
          repairBacklog := s.repairBacklog.erase token },
          .ok [.int 1,.int 1,.str (toString now),.str (toString prior)])
      else reliableAckLease s token retention now
    | none => reliableAckLease s token retention now

/-- `reliableReleaseScriptSource`. -/
def reliableRelease (tonumber : Bytes → Option Int) (s : ReliableState) (token : String)
    (now : Int) : ReliableState × ScriptReply :=
  if token = "" then (s,.error "reliable release: invalid token")
  else
    match s.inflight.get? token, s.visibility.get? token with
    | some envelope, some score =>
      if score ≤ now then (s,.ok [.int 0,.str (toString now)])
      else if !envelopeValid tonumber envelope then (s,.error "reliable release: invalid envelope")
      else
        ({ s with
          ready := s.ready ++ [envelopePayload envelope],
          visibility := s.visibility.erase token, inflight := s.inflight.erase token,
          repairBacklog := s.repairBacklog.erase token },
          .ok [.int 1,.str (toString now)])
    | _, _ => (s,.ok [.int 0,.str (toString now)])

/-- `reliableDeferScriptSource`. -/
def reliableDefer (tonumber : Bytes → Option Int) (s : ReliableState) (oldToken newToken : String)
    (delay now : Int) : ReliableState × ScriptReply :=
  if oldToken = "" ∨ newToken = "" ∨ delay < 0 then (s,.error "reliable retry: invalid argument")
  else if s.inflight.contains newToken ∨ s.visibility.contains newToken ∨
      s.outcomes.contains newToken ∨ s.repairBacklog.contains newToken then (s,.ok [.int 2])
  else
    match s.inflight.get? oldToken, s.visibility.get? oldToken with
    | some envelope, some score =>
      if score ≤ now then (s,.ok [.int 0,.str (toString now)])
      else if envelope.length < 11 ∨ envelope[10]? ≠ some 0x3A then
        (s,.error "reliable retry: invalid envelope")
      else
        match tonumber (envelope.take 10) with
        | none => (s,.error "reliable retry: invalid failure count")
        | some failure =>
          let failure := if failure < 9999999999 then failure + 1 else failure
          let newEnvelope := format010d failure ++ ascii ":" ++ envelopePayload envelope
          ({ s with
            inflight := (s.inflight.insert newToken newEnvelope).erase oldToken,
            visibility := (s.visibility.insert newToken (now + delay)).erase oldToken,
            repairBacklog := s.repairBacklog.erase oldToken },
            .ok [.int 1,.str newToken,.str (toString newEnvelope),.str (toString now),
              .str (toString (now + delay))])
    | _, _ => (s,.ok [.int 0,.str (toString now)])

/-! ### The queue as a state machine -/

/-- One atomic step: a producer's `RPUSH`, or one script run with its arguments, its
`TIME` reading and, for a claim, the `HSCAN` reply. -/
inductive ReliableOp
  | push (payload : Bytes)
  | claim (token : String) (lease outcomeTtl now : Int) (scanCursor : String)
      (scanFields : List String)
  | renew (token : String) (lease now : Int)
  | ack (token : String) (retention ttl now : Int)
  | release (token : String) (now : Int)
  | deferRetry (oldToken newToken : String) (delay now : Int)

def reliableStep (tonumber : Bytes → Option Int) (s : ReliableState) : ReliableOp → ReliableState
  | .push p => { s with ready := s.ready ++ [p] }
  | .claim token lease ttl now cursor fields => (reliableClaim tonumber s token lease ttl now cursor fields).1
  | .renew token lease now => (reliableRenew s token lease now).1
  | .ack token retention ttl now => (reliableAck s token retention ttl now).1
  | .release token now => (reliableRelease tonumber s token now).1
  | .deferRetry old new delay now => (reliableDefer tonumber s old new delay now).1

/-- `HSCAN` returns fields of the hash. -/
def ReliableOp.Admissible (s : ReliableState) : ReliableOp → Prop
  | .claim _ _ _ _ _ fields => ∀ f ∈ fields, s.inflight.contains f
  | _ => True

end Gkit.Queue
