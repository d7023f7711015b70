import Mathlib
import Gkit.Library.Runs

/-!
The Snowflake generator of `generator/snowflake.go`. An ID packs 39 bits of time, 8 of
sequence and 16 of node. The `int64` fields are integers, and each `int64` result the
source computes is wrapped as Go wraps it; the `uint16` and `uint64` values are Lean's
fixed-width types. A wall-clock reading is what `toSnowflakeTime` reads of it, its
`UnixNano`. `NextID` holds the generator's lock for its whole body, so a call is one step;
the sleep after a sequence wrap changes nothing of the state.
-/

namespace Gkit.Generator

def TimeBit : Nat := 39
def NodeBit : Nat := 16
def SequenceBit : Nat := 8

/-- A Go `int64` result: the integer wrapped into `[-2^63, 2^63)`. -/
def int64 (x : Int) : Int := x.bmod (2 ^ 64)

/-- A wall-clock reading, by its `t.UTC().UnixNano()`. -/
structure Reading where
  unixNano : Int
  lo : -2 ^ 63 ≤ unixNano
  hi : unixNano < 2 ^ 63

/-- `timeUnit`: the ten milliseconds of one Snowflake tick, in nanoseconds. -/
def timeUnit : Int := 10000000

/-- `toSnowflakeTime`: Go's `int64` division truncates toward zero. -/
def toSnowflakeTime (t : Reading) : Int := t.unixNano.tdiv timeUnit

def currentElapsedTime (startTime : Int) (now : Reading) : Int :=
  int64 (toSnowflakeTime now - startTime)

/-- The generator: its `int64` start and elapsed time, its `uint16` sequence and node. -/
structure Snowflake where
  startTime : Int
  elapsedTime : Int
  sequence : UInt16
  node : UInt16
deriving DecidableEq

/-- `toID`: the three fields shifted into place, or the time-limit error. -/
def Snowflake.toID (s : Snowflake) : Except String UInt64 :=
  if s.elapsedTime ≥ 2 ^ TimeBit then .error "over the time limit"
  else .ok (UInt64.ofInt s.elapsedTime <<< (SequenceBit + NodeBit).toUInt64 |||
    s.sequence.toUInt64 <<< NodeBit.toUInt64 ||| s.node.toUInt64)

/-- `maskSequence` of `NextID`: `uint16(1<<SequenceBit - 1)`. -/
def maskSequence : UInt16 := (2 ^ SequenceBit - 1 : Nat).toUInt16

/-- The generator after `NextID` at the reading `now`: a later clock takes its time and a
new sequence; otherwise the sequence goes on, and its wrap moves the time one tick on. -/
def Snowflake.advance (s : Snowflake) (now : Reading) : Snowflake :=
  let current := currentElapsedTime s.startTime now
  if s.elapsedTime < current then { s with elapsedTime := current, sequence := 0 }
  else
    let sequence := (s.sequence + 1) &&& maskSequence
    if sequence = 0 then { s with elapsedTime := int64 (s.elapsedTime + 1), sequence := sequence }
    else { s with sequence := sequence }

/-- `NextID`: the generator after the call, and the ID or error it returns. -/
def Snowflake.NextID (s : Snowflake) (now : Reading) : Snowflake × Except String UInt64 :=
  (s.advance now,(s.advance now).toID)

/-- The fields `Decompose` returns; its map has exactly these keys. -/
structure Decomposed where
  id : UInt64
  msb : UInt64
  time : UInt64
  sequence : UInt64
  node : UInt64
deriving DecidableEq, Repr

/-- `Decompose`. Go's `&` and `>>` bind alike and from the left, so the sequence is
`(id & maskSequence) >> NodeBit`. -/
def Decompose (id : UInt64) : Decomposed :=
  let maskSequence : UInt64 := ((2 ^ SequenceBit - 1) * 2 ^ NodeBit : Nat).toUInt64
  let maskMachineID : UInt64 := (2 ^ NodeBit - 1 : Nat).toUInt64
  ⟨id,id >>> 63,id >>> (SequenceBit + NodeBit).toUInt64,(id &&& maskSequence) >>> NodeBit.toUInt64,
    id &&& maskMachineID⟩

/-- The Unix time of the default start, the first of September 2014, in nanoseconds. -/
def defaultStart : Reading := ⟨1409529600000000000,by decide,by decide⟩

/-- `NewSnowflakeE` at the reading `now`: a start later than `now` is refused, and the zero
time (`none`) starts at `defaultStart`. -/
def NewSnowflakeE (startTime : Option Reading) (nodeID : UInt16) (now : Reading) :
    Except String Snowflake :=
  match startTime with
  | some t =>
    if t.unixNano > now.unixNano then .error "generator: startTime is in the future"
    else .ok ⟨toSnowflakeTime t,0,(2 ^ SequenceBit - 1 : Nat).toUInt16,nodeID⟩
  | none => .ok ⟨toSnowflakeTime defaultStart,0,(2 ^ SequenceBit - 1 : Nat).toUInt16,nodeID⟩

/-- One call of `NextID` at a reading. -/
def snowflakeStep (s : Snowflake) (now : Reading) : Snowflake := (s.NextID now).1

/-- What a call hands out: its ID with the generator after it, when it does not fail. -/
def issued (s : Snowflake) (now : Reading) : List (UInt64 × Snowflake) :=
  match (s.NextID now).2 with
  | .ok id => [(id,(s.NextID now).1)]
  | .error _ => []

end Gkit.Generator
