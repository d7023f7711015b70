import Mathlib

/-!
The durable chord record of `distributed/backend/durable_chord.go`: the delivery a
backend stores for one chord, its members' publication records, and the helpers the
transition functions share. Go's `time.Time` is nanoseconds after the zero time; a
slice is `Option (List _)`, `none` being the nil slice, since JSON tells `null` from
`[]`; the package's string-typed enumerations are closed inductives, as only their
constants are ever stored or passed.
-/

namespace Gkit.Chord

/-- Go's `time.Time` as nanoseconds after the zero time. The chord code only reads it
through `IsZero`, `After` and `Add`. -/
structure Time where
  ns : Int
deriving DecidableEq, Repr

namespace Time

def zero : Time := ⟨0⟩

def IsZero (t : Time) : Bool := t.ns == 0

def After (t u : Time) : Bool := decide (u.ns < t.ns)

def Add (t : Time) (d : Int) : Time := ⟨t.ns + d⟩

end Time

/-- `time.Second`, in nanoseconds. -/
def second : Int := 1000000000

/-- Go's `int64` arithmetic wraps; `time.Duration` products go through it. -/
def wrapInt64 (x : Int) : Int := x.bmod (2 ^ 64)

/-- An `int64` `++` always moves its value: `2^64` is no multiple of one. -/
@[simp] theorem wrapInt64_succ_ne (v : Int) : wrapInt64 (v + 1) ≠ v := by
  intro h
  have hmod := Int.bmod_emod (x := v + 1) (m := 2 ^ 64)
  rw [show (v + 1).bmod (2 ^ 64) = v from h] at hmod
  push_cast at hmod
  omega

abbrev Bytes := List UInt8

/-- A Go slice; `none` is the nil slice. -/
abbrev Slice (α : Type) := Option (List α)

/-- The elements of a slice, as `range` visits them. -/
def Slice.toList {α : Type} : Slice α → List α
  | none => []
  | some xs => xs

/-- A run of `append(s, x)` calls, one per element: with nothing appended the slice,
nil or not, is returned as it was. -/
def Slice.appendAll {α : Type} (s : Slice α) : List α → Slice α
  | [] => s
  | xs => some (s.toList ++ xs)

inductive ChordMemberState
  | setup | ready | leased | published | publishUnknown | terminal
deriving DecidableEq, Repr

inductive ChordCallbackState
  | waiting | ready | leased | published | publishUnknown | delivered | suppressed
deriving DecidableEq, Repr

inductive MemberTerminalOutcome
  | success | failure
deriving DecidableEq, Repr

inductive CallbackTerminalOutcome
  | success | failure
deriving DecidableEq, Repr

inductive ChordPublishOutcomeKind
  | succeeded | unknown | rejected
deriving DecidableEq, Repr

/-- The string each constant holds. -/
def MemberTerminalOutcome.toString : MemberTerminalOutcome → String
  | .success => "SUCCESS"
  | .failure => "FAILURE"

def ChordPublishOutcomeKind.toString : ChordPublishOutcomeKind → String
  | .succeeded => "PUBLISHED"
  | .unknown => "UNKNOWN"
  | .rejected => "REJECTED"

/-- `task.Result`; `V` stands for the dynamic Go values an `interface{}` holds. -/
structure TaskResult (V : Type) where
  type : String
  value : V
deriving DecidableEq, Repr

structure Arg (V : Type) where
  type : String
  key : String
  value : V
deriving DecidableEq, Repr

/-- `[]*task.Result`: a slice of possibly nil pointers. -/
abbrev Results (V : Type) := Slice (Option (TaskResult V))

structure ChordMemberReceipt (V : Type) where
  taskID : String
  outcome : MemberTerminalOutcome
  results : Results V
deriving DecidableEq, Repr

structure ChordMemberPublication (V : Type) where
  ordinal : Int
  taskID : String
  payload : Bytes
  state : ChordMemberState
  version : Int
  leaseOwner : String
  leaseExpiresAt : Time
  attempts : Int
  nextAttemptAt : Time
  confirmationDeadline : Time
  lastError : String
  receipt : Option (ChordMemberReceipt V)
deriving DecidableEq, Repr

/-- `ChordDelivery`. An empty `TerminalOutcome` string is `none`. -/
structure ChordDelivery (V : Type) where
  deliveryKey : String
  definitionHash : String
  groupID : String
  groupName : String
  retention : Int
  registrationOwner : String
  registrationVersion : Int
  version : Int
  memberPublicationStarted : Bool
  callbackTemplate : Bytes
  callbackPayload : Bytes
  members : List (ChordMemberPublication V)
  callbackState : ChordCallbackState
  callbackVersion : Int
  callbackLeaseOwner : String
  callbackLeaseExpiresAt : Time
  callbackAttempts : Int
  callbackNextAttemptAt : Time
  callbackConfirmationAt : Time
  callbackLastError : String
  terminalOutcome : Option CallbackTerminalOutcome
  terminalAt : Time
  terminalExpireAt : Option Time
  createdAt : Time
  updatedAt : Time
deriving DecidableEq, Repr

structure ChordMemberRegistration where
  ordinal : Int
  taskID : String
  payload : Bytes
deriving DecidableEq, Repr

/-- The registration fields `NewChordDelivery` reads. -/
structure ChordRegistration where
  deliveryKey : String
  definitionHash : String
  groupID : String
  groupName : String
  retention : Int
  callback : Bytes
  members : List ChordMemberRegistration
deriving DecidableEq, Repr

/-- The package's sentinel errors, the `encoding/json` failures it wraps with a
context, and the runtime panic of a nil dereference. -/
inductive ChordError
  | notFound
  | leaseLost
  | receiptConflict
  | terminalConflict
  | wrapped (context inner : String)
  | json (inner : String)
  | nilDereference
deriving DecidableEq, Repr

def ChordError.message : ChordError → String
  | .notFound => "chord delivery not found"
  | .leaseLost => "chord publication lease lost"
  | .receiptConflict => "chord member receipt conflict"
  | .terminalConflict => "chord terminal outcome conflict"
  | .wrapped context inner => context ++ ": " ++ inner
  | .json inner => inner
  | .nilDereference => "runtime error: invalid memory address or nil pointer dereference"

/-- What the chord code uses of `encoding/json` for the two Go types whose encoding
this package does not fix: the member results, whose values are `interface{}`, and
the callback `task.Signature` (type `Sig`), together with that struct's `Args` field. -/
structure TaskCodec (V Sig : Type) where
  marshalResults : Results V → Except String Bytes
  unmarshalResults : Bytes → Except String (Results V)
  unmarshalSignature : Bytes → Except String Sig
  marshalSignature : Sig → Except String Bytes
  args : Sig → Slice (Arg V)
  setArgs : Sig → Slice (Arg V) → Sig

def defaultChordRetentionSeconds : Int := 3600

def normalizeChordRetention (value : Int) : Int :=
  if value = 0 then defaultChordRetentionSeconds else value

def newChordDelivery {V : Type} (reg : ChordRegistration) (owner : String) (now : Time) :
    ChordDelivery V where
  deliveryKey := reg.deliveryKey
  definitionHash := reg.definitionHash
  groupID := reg.groupID
  groupName := reg.groupName
  retention := normalizeChordRetention reg.retention
  registrationOwner := owner
  registrationVersion := 1
  version := 1
  memberPublicationStarted := false
  callbackTemplate := reg.callback
  callbackPayload := []
  members := reg.members.map fun member =>
    { ordinal := member.ordinal, taskID := member.taskID, payload := member.payload,
      state := .setup, version := 1, leaseOwner := "", leaseExpiresAt := .zero,
      attempts := 0, nextAttemptAt := .zero, confirmationDeadline := .zero,
      lastError := "", receipt := none }
  callbackState := .waiting
  callbackVersion := 1
  callbackLeaseOwner := ""
  callbackLeaseExpiresAt := .zero
  callbackAttempts := 0
  callbackNextAttemptAt := .zero
  callbackConfirmationAt := .zero
  callbackLastError := ""
  terminalOutcome := none
  terminalAt := .zero
  terminalExpireAt := none
  createdAt := now
  updatedAt := now

variable {V Sig : Type}

/-- The member an ordinal selects, with its index: `none` exactly when the Go code's
`ordinal < 0 || ordinal >= len(delivery.Members)` rejects it. -/
def ChordDelivery.member? (d : ChordDelivery V) (ordinal : Int) :
    Option (Nat × ChordMemberPublication V) :=
  if ordinal < 0 then none else (d.members[ordinal.toNat]?).map (ordinal.toNat,·)

/-- Writing back the member at index `i` (`member := &delivery.Members[i]`). -/
def ChordDelivery.setMember (d : ChordDelivery V) (i : Nat) (m : ChordMemberPublication V) :
    ChordDelivery V :=
  { d with members := d.members.set i m }

def chordErrorSummary (operation : String) (kind : ChordPublishOutcomeKind)
    (error : String) : String :=
  if error = "" then "" else "operation=" ++ operation ++ " category=" ++ kind.toString.toLower

def deadlineOrDefault (value fallback : Time) : Time :=
  if value.IsZero then fallback else value

/-- `cloneChordResults`: a JSON round trip of the results. -/
def cloneChordResults (codec : TaskCodec V Sig) (results : Results V) :
    Except ChordError (Results V) := do
  let body ← (codec.marshalResults results).mapError (.wrapped "serialize chord member results")
  (codec.unmarshalResults body).mapError (.wrapped "deserialize chord member results")

/-- The callback arguments the members' results contribute, in member order; a nil
receipt or a nil result pointer is dereferenced and panics. -/
def memberResultArgs : List (ChordMemberPublication V) → Except ChordError (List (Arg V))
  | [] => pure []
  | m :: ms => do
    let receipt ← match m.receipt with
      | none => throw .nilDereference
      | some r => pure r
    let mine ← receipt.results.toList.mapM fun
      | none => throw .nilDereference
      | some r => pure { type := r.type, key := "", value := r.value }
    let rest ← memberResultArgs ms
    pure (mine ++ rest)

def buildChordCallbackPayload (codec : TaskCodec V Sig) (d : ChordDelivery V) :
    Except ChordError Bytes := do
  let callback ← (codec.unmarshalSignature d.callbackTemplate).mapError
    (.wrapped "decode chord callback template")
  let extra ← memberResultArgs d.members
  (codec.marshalSignature (codec.setArgs callback ((codec.args callback).appendAll extra))).mapError
    .json

/-- `now := x.Now; if now.IsZero() { now = time.Now() }`, where `wall` is what
`time.Now()` returns. -/
def nowOr (t wall : Time) : Time := if t.IsZero then wall else t

def setChordTerminalTime (d : ChordDelivery V) (now wall : Time) : ChordDelivery V :=
  let now := nowOr now wall
  if d.retention < 0 then { d with terminalAt := now, terminalExpireAt := none }
  else
    let expires := now.Add (wrapInt64 (normalizeChordRetention d.retention * second))
    { d with terminalAt := now, terminalExpireAt := some expires }

def setChordSuppressed (d : ChordDelivery V) (now wall : Time) : ChordDelivery V :=
  if d.callbackState = .delivered ∨ d.callbackState = .suppressed then d
  else
    let d := setChordTerminalTime
      { d with callbackState := .suppressed, terminalOutcome := some .failure } now wall
    { d with callbackVersion := wrapInt64 (d.callbackVersion + 1) }

/-! ### A concrete codec

The runs on fixed inputs below instantiate `TaskCodec` with a few dynamic Go values and
the encodings Go gives them. Decoding a JSON number into `interface{}` yields a
`float64`; the results decoder knows the texts of a given list of result slices, which
is all a fixed run ever hands it. -/

/-- Dynamic values a result can hold in the concrete runs; numbers are integral. -/
inductive GoValue
  | int (n : Int)
  | int64 (n : Int)
  | float64 (n : Int)
  | str (s : String)
deriving DecidableEq, Repr

/-- The bytes of an ASCII literal. -/
def ascii (s : String) : Bytes := s.toList.map Char.toUInt8

/-- Go's JSON string encoding with HTML escaping, for one character. -/
def jsonEscapeChar (c : Char) : Bytes :=
  let hex (n : Nat) : UInt8 := ("0123456789abcdef".toList.getD n '0').toUInt8
  if c = '"' then [0x5C, 0x22]
  else if c = '\\' then [0x5C, 0x5C]
  else if c = '\n' then [0x5C, 0x6E]
  else if c = '\r' then [0x5C, 0x72]
  else if c = '\t' then [0x5C, 0x74]
  else if c.toNat < 0x20 ∨ c = '<' ∨ c = '>' ∨ c = '&' then
    [0x5C, 0x75, 0x30, 0x30, hex (c.toNat / 16), hex (c.toNat % 16)]
  else if c.toNat = 0x2028 then [0x5C, 0x75, 0x32, 0x30, 0x32, 0x38]
  else if c.toNat = 0x2029 then [0x5C, 0x75, 0x32, 0x30, 0x32, 0x39]
  else String.utf8EncodeChar c

def jsonString (s : String) : Bytes := 0x22 :: s.toList.flatMap jsonEscapeChar ++ [0x22]

def GoValue.toJson : GoValue → Bytes
  | .int n | .int64 n | .float64 n => ascii (toString n)
  | .str s => jsonString s

def GoValue.decoded : GoValue → GoValue
  | .int n | .int64 n | .float64 n => .float64 n
  | .str s => .str s

/-- Elements joined by commas inside brackets; a nil slice is `null`. -/
def jsonArray {α : Type} (item : α → Bytes) : Slice α → Bytes
  | none => ascii "null"
  | some xs => ascii "[" ++ ((xs.map item).intersperse (ascii ",")).flatten ++ ascii "]"

def marshalSampleResult : Option (TaskResult GoValue) → Bytes
  | none => ascii "null"
  | some r => ascii "\x7b\"type\":" ++ jsonString r.type ++ ascii ",\"value\":" ++
      r.value.toJson ++ ascii "\x7d"

def marshalSampleArg (a : Arg GoValue) : Bytes :=
  ascii "\x7b\"type\":" ++ jsonString a.type ++ ascii ",\"key\":" ++ jsonString a.key ++
    ascii ",\"value\":" ++ a.value.toJson ++ ascii "\x7d"

/-- The codec of the concrete runs: results whose texts are those of `known`, and a
callback signature reduced to its `Args`, decoded from the empty object. -/
def sampleCodec (known : List (Results GoValue)) : TaskCodec GoValue (Slice (Arg GoValue)) where
  marshalResults r := .ok (jsonArray marshalSampleResult r)
  unmarshalResults b :=
    match known.find? (fun r => jsonArray marshalSampleResult r == b) with
    | some r => .ok (r.map fun xs => xs.map fun o => o.map fun x => { x with value := x.value.decoded })
    | none => if b = ascii "null" then .ok none else .error "unexpected JSON input"
  unmarshalSignature b := if b = ascii "\x7b\x7d" then .ok none else .error "unexpected JSON input"
  marshalSignature args := .ok (ascii "\x7b\"args\":" ++ jsonArray marshalSampleArg args ++ ascii "\x7d")
  args s := s
  setArgs _ a := a

theorem sampleCodec_marshalSignature_ne_nil (known : List (Results GoValue))
    (s : Slice (Arg GoValue)) (b : Bytes) (h : (sampleCodec known).marshalSignature s = .ok b) :
    b ≠ [] := by
  cases h
  exact List.append_ne_nil_of_left_ne_nil (List.append_ne_nil_of_left_ne_nil (by decide) _) _

/-- A one-member chord whose callback template is the empty object. -/
def sampleRegistration : ChordRegistration where
  deliveryKey := "chord"
  definitionHash := "hash"
  groupID := "group"
  groupName := "group"
  retention := 0
  callback := ascii "\x7b\x7d"
  members := [{ ordinal := 0, taskID := "t", payload := ascii "p" }]

end Gkit.Chord
