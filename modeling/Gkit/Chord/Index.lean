import Gkit.Chord.Transitions
import Gkit.Library.Redis

/-!
The Redis chord backend of `backend_redis/durable_chord.go`: chord records under their
record keys, the delivery index (a sorted set read by `ZRANGEBYLEX`), the terminal index
scored by expiry, and the index-state hash whose values `pending:owner`,
`committed:owner` and `deleting:token` fence the index against stale cleanup.

Every Lua script, every plain command and every `WATCH`/`EXEC` transaction is one atomic
step on the store; a caller (`RegisterChord`, `AbortRegistration`,
`ScanChordDeliveries`, `CleanupTerminalChordDeliveries`, `updateChordDelivery`) is a
program counter between its steps and may stop forever between any two. A record written
with a `TerminalExpireAt` carries a TTL, and its expiry is a step of the environment.
-/

namespace Gkit.Chord

open Redis

variable {V : Type}

/-- A record as Redis holds it: the delivery, the time its TTL runs out, and a stamp that
changes on every write, which is what `WATCH` looks at. -/
structure StoredChord (V : Type) where
  delivery : ChordDelivery V
  expireAt : Option Time
  stamp : Nat
deriving DecidableEq

/-- The keys of the chord backend. -/
structure ChordIndexStore (V : Type) where
  records : Assoc String (StoredChord V)
  deliveries : ZSet String
  terminal : ZSet String
  indexState : Assoc String String
  /-- the count of record writes so far, the source of fresh stamps -/
  writes : Nat

def ChordIndexStore.empty : ChordIndexStore V := ⟨.empty,.empty,.empty,.empty,0⟩

/-- `strings.HasPrefix`; the scripts' `string.sub(current, 1, n) == p` is the same test. -/
def hasPrefix (s pre : String) : Bool := pre.toList.isPrefixOf s.toList

/-- `strings.Split` at a one-character separator. -/
def splitAt (s : String) (sep : Char) : List String := (s.toList.splitOn sep).map String.ofList

/-- Go's `%q` of a key, for keys with nothing to escape. -/
def quoted (s : String) : String := "\"" ++ s ++ "\""

def redisChordKeyPrefix : String := "gkit:chord:"

/-- `redisChordRecordKey`: the record of `chord:v1:slot:id` lives at the slot's key, so
every delivery key of one slot names the same record. -/
def redisChordRecordKey (deliveryKey : String) : Except String String :=
  match splitAt deliveryKey ':' with
  | ["chord","v1",slot,_] =>
    if slot = "" then .error ("invalid chord delivery key " ++ quoted deliveryKey)
    else .ok (redisChordKeyPrefix ++ "\x7b" ++ slot ++ "\x7d:record")
  | _ => .error ("invalid chord delivery key " ++ quoted deliveryKey)

example : redisChordRecordKey "chord:v1:g:1" = .ok "gkit:chord:\x7bg\x7d:record" := by decide

namespace ChordIndexStore

/-- `GET key`, decoded. -/
def load (s : ChordIndexStore V) (key : String) : Option (ChordDelivery V) :=
  (s.records.get? key).map StoredChord.delivery

/-- `HGET delivery-state k`, with a missing field read as `""` as `chordIndexState` does. -/
def state (s : ChordIndexStore V) (k : String) : String := (s.indexState.get? k).getD ""

/-- `SET key body PX ttl` (no TTL when `expireAt` is `none`). -/
def setRecord (s : ChordIndexStore V) (key : String) (d : ChordDelivery V) (expireAt : Option Time) :
    ChordIndexStore V :=
  { s with records := s.records.insert key ⟨d,expireAt,s.writes⟩, writes := s.writes + 1 }

/-- `DEL key`. -/
def delRecord (s : ChordIndexStore V) (key : String) : ChordIndexStore V :=
  { s with records := s.records.erase key }

end ChordIndexStore

/-! ### The index scripts -/

section Scripts

variable (s : ChordIndexStore V)

/-- `redisChordPrepareIndexScript`: publish a pending generation, unless a deletion holds
the state. A committed state is left as it is. -/
def prepareChordIndex (k owner : String) : ChordIndexStore V × String :=
  match s.indexState.get? k with
  | some current =>
    if hasPrefix current "deleting:" then (s,current)
    else
      let s := { s with deliveries := s.deliveries.insert k 0 }
      if hasPrefix current "pending:" then
        ({ s with indexState := s.indexState.insert k ("pending:" ++ owner) },"")
      else (s,"")
  | none =>
    ({ s with
      deliveries := s.deliveries.insert k 0,
      indexState := s.indexState.insert k ("pending:" ++ owner) },"")

/-- `redisChordCommitIndexScript`. -/
def commitChordIndex (k expectedOwner recordOwner : String) : ChordIndexStore V :=
  let s := { s with deliveries := s.deliveries.insert k 0 }
  match s.indexState.get? k with
  | none => { s with indexState := s.indexState.insert k ("committed:" ++ recordOwner) }
  | some current =>
    if current = "pending:" ++ expectedOwner then
      { s with indexState := s.indexState.insert k ("committed:" ++ recordOwner) }
    else s

/-- `redisChordForceCommitIndexScript`. -/
def forceCommitChordIndex (k recordOwner : String) : ChordIndexStore V :=
  { s with
    deliveries := s.deliveries.insert k 0,
    indexState := s.indexState.insert k ("committed:" ++ recordOwner) }

/-- `redisChordEnsureIndexScript`. -/
def ensureChordIndex (k recordOwner : String) : ChordIndexStore V :=
  let s := { s with deliveries := s.deliveries.insert k 0 }
  match s.indexState.get? k with
  | none => { s with indexState := s.indexState.insert k ("committed:" ++ recordOwner) }
  | some _ => s

/-- The three removals every index-removing script makes. -/
def dropIndexes (k : String) : ChordIndexStore V :=
  { s with
    deliveries := s.deliveries.erase k, terminal := s.terminal.erase k,
    indexState := s.indexState.erase k }

/-- `redisChordRemoveIndexScript`: remove only the generation the caller saw, `""` standing
for a missing state. -/
def removeChordIndexesIfState (k expected : String) : ChordIndexStore V × Bool :=
  match s.indexState.get? k with
  | none => if expected = "" then (dropIndexes s k,true) else (s,false)
  | some current => if current = expected then (dropIndexes s k,true) else (s,false)

/-- The unconditional removal `removeChordIndexes`. -/
def removeChordIndexes (k : String) : ChordIndexStore V := dropIndexes s k

/-- `redisChordBeginDeleteScript`: fence a committed generation of `recordOwner` for
deletion. -/
def beginChordDelete (k recordOwner deleteToken : String) : ChordIndexStore V × Bool :=
  let fenced := { s with indexState := s.indexState.insert k ("deleting:" ++ deleteToken) }
  match s.indexState.get? k with
  | none => (fenced,true)
  | some current =>
    if hasPrefix current "pending:" || hasPrefix current "deleting:" then (s,false)
    else if current ≠ "committed:" ++ recordOwner then (s,false)
    else (fenced,true)

/-- `redisChordRestoreIndexScript`. -/
def restoreChordIndex (k deleteToken recordOwner : String) : ChordIndexStore V :=
  if s.indexState.get? k = some ("deleting:" ++ deleteToken) then
    { s with indexState := s.indexState.insert k ("committed:" ++ recordOwner) }
  else s

/-- `redisChordDeleteRecordScript`: delete the record if `recordOwner` registered it. -/
def deleteChordRecordIfOwner (key recordOwner : String) : ChordIndexStore V × Nat :=
  match s.load key with
  | none => (s,0)
  | some d => if d.registrationOwner ≠ recordOwner then (s,0) else (s.delRecord key,1)

end Scripts

/-! ### What the callers read of a record -/

def validRedisChordRecord (d : ChordDelivery V) (recordKey : String) : Bool :=
  d.deliveryKey ≠ "" && d.groupID ≠ "" && d.registrationOwner ≠ "" &&
    decide (0 < d.registrationVersion) &&
    match redisChordRecordKey d.deliveryKey with
    | .ok key => key = recordKey
    | .error _ => false

/-- What each backend call's mutate callback hands `updateChordDelivery`: the mutated
delivery, whether to write it, and the transition's error. -/
def chordMutation (codec : TaskCodec V Sig) (d : ChordDelivery V) :
    ChordTransition V → ChordDelivery V × Bool × Option ChordError
  | .prepareChordMembers now => (prepareChordMembers d now,true,none)
  | .claimChordMember claim wall =>
    let r := claimChordMember d claim wall
    (r.1,r.2.2.1,r.2.2.2)
  | .applyChordMemberPublishOutcome lease outcome wall =>
    let r := applyChordMemberPublishOutcome d lease outcome wall
    (r.1,true,r.2)
  | .applyChordMemberTerminal ordinal taskID outcome results now wall =>
    let r := applyChordMemberTerminal codec d ordinal taskID outcome results now wall
    (r.1,r.1.version != d.version,r.2)
  | .claimChordCallback claim wall =>
    let r := claimChordCallback d claim wall
    (r.1,r.2.2.1,r.2.2.2)
  | .applyChordCallbackPublishOutcome lease outcome wall =>
    let r := applyChordCallbackPublishOutcome d lease outcome wall
    (r.1,true,r.2)
  | .applyChordCallbackTerminal outcome now wall =>
    let r := applyChordCallbackTerminal d outcome now wall
    (r.1,r.1.version != d.version,r.2)

/-- `time.Time.UnixMilli`: milliseconds since 1970, the zero time lying 62135596800 s
before it. -/
def Time.UnixMilli (t : Time) : Int := (t.ns - 62135596800 * second) / 1000000

/-- When a record written at `wall` with `TerminalExpireAt = t` expires: go-redis sends the
TTL `time.Until(t)` in whole milliseconds, and a TTL that has run out as one millisecond. -/
def redisExpiry (wall t : Time) : Time :=
  if t.After wall then wall.Add ((t.ns - wall.ns) / 1000000 * 1000000) else wall.Add 1000000

/-! ### The callers

Each call is a program counter and the values it has read so far; `step` runs the
command or script at the counter and moves it on. Local computation between two
commands is folded into the step that issues the next command. -/

structure ChordRegistrationRef where
  deliveryKey : String
  owner : String
  version : Int
  created : Bool
deriving DecidableEq

/-- Where a `RegisterChord` call stands. -/
inductive RegisterPC (V : Type)
  | prepare (attempt : Nat)
  /-- a deletion fences the index: is its record still there? -/
  | loadDeleting (state : String) (attempt : Nat)
  | removeDeleting (state : String) (attempt : Nat)
  | setNX
  | forceCommit
  | loadExisting
  | commitExisting (existing : ChordDelivery V)
  | ensureExisting (existing : ChordDelivery V)
  /-- `none`: the occupied record is no chord of this slot, and the call fails -/
  | removePending (existing : Option (ChordDelivery V))
  | done (ref : ChordRegistrationRef)
  | failed (message : String)
deriving DecidableEq

structure RegisterCall (V : Type) where
  recordKey : String
  owner : String
  delivery : ChordDelivery V
  pc : RegisterPC V

/-- One step of `RegisterChord`. -/
def registerStep (s : ChordIndexStore V) (c : RegisterCall V) : ChordIndexStore V × RegisterPC V :=
  let k := c.delivery.deliveryKey
  match c.pc with
  | .prepare attempt =>
    let (s,state) := prepareChordIndex s k c.owner
    (s,if hasPrefix state "deleting:" then .loadDeleting state attempt else .setNX)
  | .loadDeleting state attempt =>
    match s.load c.recordKey with
    | none => (s,.removeDeleting state attempt)
    | some _ =>
      (s,if attempt = 15 then .failed "redis chord registration blocked by deletion"
        else .prepare (attempt + 1))
  | .removeDeleting state attempt => ((removeChordIndexesIfState s k state).1,.prepare (attempt + 1))
  | .setNX =>
    match s.records.get? c.recordKey with
    | none => (s.setRecord c.recordKey c.delivery none,.forceCommit)
    | some _ => (s,.loadExisting)
  | .forceCommit =>
    (forceCommitChordIndex s k c.owner,
      .done ⟨k,c.owner,c.delivery.registrationVersion,true⟩)
  | .loadExisting =>
    match s.load c.recordKey with
    | none => (s,.failed "redis: nil")
    | some existing =>
      if !validRedisChordRecord existing c.recordKey then (s,.removePending none)
      else if existing.deliveryKey = k then (s,.commitExisting existing)
      else (s,.ensureExisting existing)
  | .commitExisting existing =>
    (commitChordIndex s existing.deliveryKey c.owner existing.registrationOwner,
      .done ⟨existing.deliveryKey,existing.registrationOwner,existing.registrationVersion,false⟩)
  | .ensureExisting existing =>
    (ensureChordIndex s existing.deliveryKey existing.registrationOwner,
      .removePending (some existing))
  | .removePending existing =>
    ((removeChordIndexesIfState s k ("pending:" ++ c.owner)).1,
      match existing with
      | some e => .done ⟨e.deliveryKey,e.registrationOwner,e.registrationVersion,false⟩
      | none =>
        .failed ("chord registration conflict: redis chord record " ++ quoted c.recordKey ++
          " is occupied by incompatible data"))
  | .done ref => (s,.done ref)
  | .failed m => (s,.failed m)

/-- Where an `AbortRegistration` call stands. The `WATCH` of the record key is the stamp
the call read with it. -/
inductive AbortPC (V : Type)
  | watch (attempt : Nat)
  | beginDelete (attempt stamp : Nat) (delivery : ChordDelivery V)
  | exec (attempt stamp : Nat) (delivery : ChordDelivery V) (token : String)
  /-- `EXEC` failed: the restore inside the `Watch` callback -/
  | restoreInner (attempt : Nat) (delivery : ChordDelivery V) (token : String)
  /-- the restore after the `Watch` returned `TxFailedErr` -/
  | restoreOuter (attempt : Nat) (token : String)
  | removeDeleting (token : String)
  | removeCommitted
  | done
  | failed (message : String)

structure AbortCall (V : Type) where
  ref : ChordRegistrationRef
  recordKey : String
  pc : AbortPC V

/-- One step of `AbortRegistration`; `token` is the delete token `NewChordOwner` draws
for the attempt. -/
def abortStep (s : ChordIndexStore V) (c : AbortCall V) (token : String) :
    ChordIndexStore V × AbortPC V :=
  match c.pc with
  | .watch attempt =>
    if attempt = 8 then (s,.failed "abort redis chord: redis: transaction failed")
    else
      match s.records.get? c.recordKey with
      | none => (s,.removeCommitted)
      | some r =>
        if r.delivery.registrationOwner ≠ c.ref.owner ∨
            r.delivery.registrationVersion ≠ c.ref.version then
          (s,.failed "chord registration ownership lost")
        else if r.delivery.memberPublicationStarted then (s,.failed "chord publication started")
        else (s,.beginDelete attempt r.stamp r.delivery)
  | .beginDelete attempt stamp d =>
    let (s,acquired) := beginChordDelete s d.deliveryKey d.registrationOwner token
    (s,if acquired then .exec attempt stamp d token else .watch (attempt + 1))
  | .exec attempt stamp d token =>
    -- `EXEC` runs the delete script only if the watched record was not written since
    if (s.records.get? c.recordKey).map StoredChord.stamp = some stamp then
      ((deleteChordRecordIfOwner s c.recordKey d.registrationOwner).1,.removeDeleting token)
    else (s,.restoreInner attempt d token)
  | .restoreInner attempt d token =>
    (restoreChordIndex s d.deliveryKey token d.registrationOwner,.restoreOuter attempt token)
  | .restoreOuter attempt token =>
    (restoreChordIndex s c.ref.deliveryKey token c.ref.owner,.watch (attempt + 1))
  | .removeDeleting token =>
    ((removeChordIndexesIfState s c.ref.deliveryKey ("deleting:" ++ token)).1,.done)
  | .removeCommitted =>
    ((removeChordIndexesIfState s c.ref.deliveryKey ("committed:" ++ c.ref.owner)).1,.done)
  | .done => (s,.done)
  | .failed m => (s,.failed m)

/-- Where a `ScanChordDeliveries` call stands; `rest` is what is left of the candidates. -/
inductive ScanPC (V : Type)
  | range
  | next (rest : List String)
  | readState (k recordKey : String) (rest : List String)
  | recheck (k recordKey state : String) (rest : List String)
  | removeMissing (k state : String) (rest : List String)
  | ensure (k : String) (d : ChordDelivery V) (rest : List String)
  | readMismatch (k : String) (rest : List String)
  | removeMismatch (k state : String) (rest : List String)
  | done

structure ScanCall (V : Type) where
  limit : Nat
  lastKey : String
  /-- how many candidates `ZRANGEBYLEX` returned -/
  fetched : Nat
  page : List (ChordDelivery V)
  processedLast : String
  hasMore : Bool
  pc : ScanPC V

/-- `ZRANGEBYLEX deliveries (lastKey + LIMIT 0 n`, from `-` for an empty `lastKey`. The
delivery index holds every member at score 0, so its order is the members' own. -/
def ChordIndexStore.rangeByLex (s : ChordIndexStore V) (lastKey : String) (n : Nat) :
    List String :=
  ((s.deliveries.sorted.map Prod.fst).filter fun m => lastKey = "" || decide (lastKey < m)).take n

/-- One step of `ScanChordDeliveries`. -/
def scanStep (s : ChordIndexStore V) (c : ScanCall V) : ChordIndexStore V × ScanCall V :=
  let next (rest : List String) : ScanCall V := { c with pc := .next rest }
  match c.pc with
  | .range =>
    let candidates := s.rangeByLex c.lastKey (c.limit + 1)
    (s,{ c with fetched := candidates.length, pc := .next candidates })
  | .next [] =>
    (s,{ c with hasMore := c.hasMore || c.fetched = c.limit + 1, pc := .done })
  | .next (k :: rest) =>
    if c.page.length = c.limit then (s,{ c with hasMore := true, pc := .done })
    else
      let c := { c with processedLast := k }
      match redisChordRecordKey k with
      | .error _ => (removeChordIndexes s k,{ c with pc := .next rest })
      | .ok key =>
        match s.load key with
        | none => (s,{ c with pc := .readState k key rest })
        | some d => (s,{ c with pc := .ensure k d rest })
  | .readState k key rest =>
    let state := s.state k
    if hasPrefix state "pending:" || hasPrefix state "deleting:" then (s,next rest)
    else (s,{ c with pc := .recheck k key state rest })
  | .recheck k key state rest =>
    -- a registration may have created the record after the first `GET`
    match s.load key with
    | none => (s,{ c with pc := .removeMissing k state rest })
    | some d => (s,{ c with pc := .ensure k d rest })
  | .removeMissing k state rest => ((removeChordIndexesIfState s k state).1,next rest)
  | .ensure k d rest =>
    let s := ensureChordIndex s d.deliveryKey d.registrationOwner
    if d.deliveryKey ≠ k then (s,{ c with pc := .readMismatch k rest })
    else (s,{ c with page := c.page ++ [d], pc := .next rest })
  | .readMismatch k rest => (s,{ c with pc := .removeMismatch k (s.state k) rest })
  | .removeMismatch k state rest => ((removeChordIndexesIfState s k state).1,next rest)
  | .done => (s,c)

/-- The page's `NextCursor`, decoded. -/
def ScanCall.nextCursor (c : ScanCall V) : Option String :=
  if c.hasMore && c.processedLast ≠ "" then some c.processedLast else none

/-- Where a `CleanupTerminalChordDeliveries` call stands. -/
inductive CleanupPC (V : Type)
  | range
  | next (rest : List String)
  | readState (k : String) (rest : List String)
  | removeMissing (k state : String) (rest : List String)
  | unindex (k : String) (rest : List String)
  | reindex (k : String) (expireAt : Time) (rest : List String)
  | beginDelete (k recordKey : String) (d : ChordDelivery V) (rest : List String)
  | deleteRecord (k recordKey : String) (d : ChordDelivery V) (token : String)
      (rest : List String)
  | removeDeleting (k token : String) (deleted : Bool) (rest : List String)
  | done

structure CleanupCall (V : Type) where
  now : Time
  limit : Nat
  removed : Nat
  pc : CleanupPC V

/-- One step of `CleanupTerminalChordDeliveries`; `token` is the delete token it draws. -/
def cleanupStep (s : ChordIndexStore V) (c : CleanupCall V) (token : String) :
    ChordIndexStore V × CleanupCall V :=
  let next (rest : List String) : CleanupCall V := { c with pc := .next rest }
  match c.pc with
  | .range =>
    (s,next ((s.terminal.rangeWithScores none c.now.UnixMilli c.limit).map Prod.fst))
  | .next [] => (s,{ c with pc := .done })
  | .next (k :: rest) =>
    match redisChordRecordKey k with
    | .error _ => (removeChordIndexes s k,next rest)
    | .ok key =>
      match s.load key with
      | none => (s,{ c with pc := .readState k rest })
      | some d =>
        match d.terminalExpireAt with
        | none => (s,{ c with pc := .unindex k rest })
        | some t =>
          if t.After c.now then (s,{ c with pc := .reindex k t rest })
          else (s,{ c with pc := .beginDelete k key d rest })
  | .readState k rest =>
    let state := s.state k
    if hasPrefix state "pending:" then (s,next rest)
    else (s,{ c with pc := .removeMissing k state rest })
  | .removeMissing k state rest => ((removeChordIndexesIfState s k state).1,next rest)
  | .unindex k rest => ({ s with terminal := s.terminal.erase k },next rest)
  | .reindex k t rest => ({ s with terminal := s.terminal.insert k t.UnixMilli },next rest)
  | .beginDelete k key d rest =>
    let (s,acquired) := beginChordDelete s k d.registrationOwner token
    (s,if acquired then { c with pc := .deleteRecord k key d token rest } else next rest)
  | .deleteRecord k key d token rest =>
    let (s,deleted) := deleteChordRecordIfOwner s key d.registrationOwner
    (s,{ c with pc := .removeDeleting k token (0 < deleted) rest })
  | .removeDeleting k token deleted rest =>
    ((removeChordIndexesIfState s k ("deleting:" ++ token)).1,
      { c with removed := if deleted then c.removed + 1 else c.removed, pc := .next rest })
  | .done => (s,c)

/-- Where an `updateChordDelivery` call stands. -/
inductive UpdatePC
  | transact
  | indexTerminal (k : String) (expireAt : Time)
  | done
  | failed (e : ChordError)

structure UpdateCall (V : Type) where
  recordKey : String
  transition : ChordTransition V
  /-- the clock `time.Until` reads -/
  wall : Time
  pc : UpdatePC

/-- One step of `updateChordDelivery`: the `WATCH`/`GET`/`SET`/`EXEC` transaction as one
atomic step, then the `ZADD` of the terminal index. -/
def updateStep (codec : TaskCodec V Sig) (s : ChordIndexStore V) (c : UpdateCall V) :
    ChordIndexStore V × UpdatePC :=
  match c.pc with
  | .transact =>
    match s.load c.recordKey with
    | none => (s,.failed .notFound)
    | some d =>
      let (d',changed,err) := chordMutation codec d c.transition
      match err with
      | some e => (s,.failed e)
      | none =>
        let s := if changed then s.setRecord c.recordKey d' (d'.terminalExpireAt.map (redisExpiry c.wall))
          else s
        (s,match d'.terminalExpireAt with
          | some t => .indexTerminal d'.deliveryKey t
          | none => .done)
  | .indexTerminal k t => ({ s with terminal := s.terminal.insert k t.UnixMilli },.done)
  | .done => (s,.done)
  | .failed e => (s,.failed e)

/-! ### The system -/

/-- A call in flight, or none. -/
inductive Caller (V : Type)
  | idle
  | register (c : RegisterCall V)
  | abort (c : AbortCall V)
  | scan (c : ScanCall V)
  | cleanup (c : CleanupCall V)
  | update (c : UpdateCall V)

def Caller.isIdle : Caller V → Bool
  | .idle => true
  | _ => false

/-- The Redis keys of the chord backend and every caller's call. -/
structure ChordSystem (V : Type) where
  store : ChordIndexStore V
  callers : Nat → Caller V

def ChordSystem.empty : ChordSystem V := ⟨.empty,fun _ => .idle⟩

/-- What can happen next: a caller starts a call (with its clock readings and drawn
owner), a caller runs its next command (`token` being what a `NewChordOwner` in it
draws), or a record's TTL runs out. The model keeps no global clock, so the environment
may expire any record written with a TTL. -/
inductive ChordSystemOp (V : Type)
  | register (id : Nat) (registration : ChordRegistration) (owner : String) (now : Time)
  | abort (id : Nat) (ref : ChordRegistrationRef)
  | scan (id : Nat) (lastKey : String) (limit : Int)
  | cleanup (id : Nat) (now : Time) (limit : Int)
  | update (id : Nat) (deliveryKey : String) (transition : ChordTransition V) (wall : Time)
  | step (id : Nat) (token : String)
  | expire (recordKey : String)

/-- The limit of a scan or a cleanup, 100 when it is not positive. -/
def normalizeChordLimit (limit : Int) : Nat := if limit ≤ 0 then 100 else limit.toNat

/-- The call an operation starts, with the checks the Go function makes before its first
command. -/
def ChordSystemOp.call : ChordSystemOp V → Option (Nat × Caller V)
  | .register id reg owner now =>
    match redisChordRecordKey reg.deliveryKey with
    | .ok key => some (id,.register ⟨key,owner,newChordDelivery reg owner now,.prepare 0⟩)
    | .error _ => none
  | .abort id ref =>
    match redisChordRecordKey ref.deliveryKey with
    | .ok key => if ref.created then some (id,.abort ⟨ref,key,.watch 0⟩) else none
    | .error _ => none
  | .scan id lastKey limit =>
    some (id,.scan ⟨normalizeChordLimit limit,lastKey,0,[],lastKey,false,.range⟩)
  | .cleanup id now limit => some (id,.cleanup ⟨now,normalizeChordLimit limit,0,.range⟩)
  | .update id deliveryKey t wall =>
    match redisChordRecordKey deliveryKey with
    | .ok key => some (id,.update ⟨key,t,wall,.transact⟩)
    | .error _ => none
  | .step _ _ | .expire _ => none

namespace ChordSystem

def setCaller (sys : ChordSystem V) (id : Nat) (c : Caller V) (s : ChordIndexStore V) :
    ChordSystem V :=
  ⟨s,fun j => if j = id then c else sys.callers j⟩

/-- Caller `id` runs its next command. -/
def advance (codec : TaskCodec V Sig) (sys : ChordSystem V) (id : Nat) (token : String) :
    ChordSystem V :=
  match sys.callers id with
  | .idle => sys
  | .register c =>
    let (s,pc) := registerStep sys.store c
    sys.setCaller id (.register { c with pc := pc }) s
  | .abort c =>
    let (s,pc) := abortStep sys.store c token
    sys.setCaller id (.abort { c with pc := pc }) s
  | .scan c =>
    let (s,c) := scanStep sys.store c
    sys.setCaller id (.scan c) s
  | .cleanup c =>
    let (s,c) := cleanupStep sys.store c token
    sys.setCaller id (.cleanup c) s
  | .update c =>
    let (s,pc) := updateStep codec sys.store c
    sys.setCaller id (.update { c with pc := pc }) s

/-- Redis drops a record whose TTL ran out. -/
def expire (sys : ChordSystem V) (key : String) : ChordSystem V :=
  match sys.store.records.get? key with
  | some ⟨_,some _,_⟩ => { sys with store := sys.store.delRecord key }
  | _ => sys

end ChordSystem

/-- One step of the system. A call starts on an idle caller only. -/
def chordSystemStep (codec : TaskCodec V Sig) (sys : ChordSystem V) :
    ChordSystemOp V → ChordSystem V
  | .step id token => sys.advance codec id token
  | .expire key => sys.expire key
  | op =>
    match op.call with
    | some (id,c) => if (sys.callers id).isIdle then sys.setCaller id c sys.store else sys
    | none => sys

def Caller.registerPC? : Caller V → Option (RegisterPC V)
  | .register c => some c.pc
  | _ => none

/-- The page of a finished scan. -/
def Caller.scanned? : Caller V → Option (List (ChordDelivery V))
  | .scan c => if c.pc matches .done then some c.page else none
  | _ => none

/-! ### A committed state outlives its record

`prepareChordIndex` leaves a `committed:` state as it is, and a record written with a
`TerminalExpireAt` expires with its state still committed. A scanner that read that state
and found the record missing twice then removes the index of the next registration, which
has not committed yet. -/

/-- The sample chord under a delivery key of slot `g`. -/
def slotRegistration : ChordRegistration := { sampleRegistration with deliveryKey := "chord:v1:g:1" }

/-- Registration `1` completes; its member fails, which suppresses the chord and gives the
record a TTL; the TTL runs out; scanner `3` reads the stale `committed:o1` state and
rechecks the record; registration `4` prepares (leaving the state committed) and creates
its record with `SETNX`. -/
def expiredRecordRun : List (ChordSystemOp GoValue) :=
  [.register 1 slotRegistration "o1" ⟨1⟩, .step 1 "", .step 1 "", .step 1 "",
    .update 2 "chord:v1:g:1" (.applyChordMemberTerminal 0 "t" .failure none ⟨2⟩ ⟨2⟩) ⟨2⟩,
    .step 2 "", .step 2 "",
    .expire "gkit:chord:\x7bg\x7d:record",
    .scan 3 "" 0, .step 3 "", .step 3 "", .step 3 "", .step 3 "",
    .register 4 slotRegistration "o2" ⟨5⟩, .step 4 "", .step 4 ""]

/-- While registration `4` sits between its `SETNX` and `forceCommitChordIndex`, the
scanner's `removeChordIndexesIfState` drops `chord:v1:g:1` from the delivery index; the
record stays, and a scan started afterwards returns an empty page. -/
theorem chord_index_lost_in_registration_window :
    let codec : TaskCodec GoValue (Slice (Arg GoValue)) := sampleCodec []
    let before := Runs.run (chordSystemStep codec) ChordSystem.empty expiredRecordRun
    let after := chordSystemStep codec before (.step 3 "")
    let rescan := Runs.run (chordSystemStep codec) after [.scan 5 "" 0, .step 5 "", .step 5 ""]
    (before.callers 4).registerPC? = some .forceCommit ∧
      before.store.deliveries.contains "chord:v1:g:1" = true ∧
      (after.callers 4).registerPC? = some .forceCommit ∧
      (after.store.load "gkit:chord:\x7bg\x7d:record").map ChordDelivery.deliveryKey =
        some "chord:v1:g:1" ∧
      after.store.deliveries.contains "chord:v1:g:1" = false ∧
      (rescan.callers 5).scanned? = some [] := by
  decide

end Gkit.Chord
