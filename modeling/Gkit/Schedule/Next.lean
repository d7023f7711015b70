import Gkit.Schedule.Parse
import Gkit.Library.GoTime
import Gkit.Library.FuelLoop

/-!
`SpecSchedule.Next` and `dayMatches` of `distributed/schedule/spec.go`, in zones of a fixed
offset (`GoTime`). The `goto WRAP` loop is a machine whose program counter names the label or
the `for` loop it is at: one step is one test of a loop condition with, when it holds, one turn
of the loop body. `Next` runs the machine (`FuelLoop`) with `nextFuel` steps, more than the
five-year limit lets it take. The zero time is `none`.
-/

namespace Gkit.Schedule

open GoTime

variable {L : Type}

/-- `1<<uint(x)&bits == 0`: the bit of the value `x` is not set. -/
def noBit (bits : BitVec 64) (x : Int) : Bool := ((1#64 <<< x.toNat) &&& bits) = 0

section

variable (zone : L → Int)

/-- `dayMatches`: with a star in either day field both must match, otherwise either. -/
def dayMatches (s : SpecSchedule L) (t : Time L) : Bool :=
  let domMatch := !noBit s.Dom (t.Day zone)
  let dowMatch := !noBit s.Dow (t.Weekday zone)
  if (s.Dom &&& starBit) ≠ 0 || (s.Dow &&& starBit) ≠ 0 then domMatch && dowMatch
  else domMatch || dowMatch

/-- Where `Next` is: the label `WRAP`, or the loop of one field. -/
inductive Pc
  | wrap
  | month
  | day
  | hour
  | minute
  | second
deriving DecidableEq, Repr

/-- The state of `Next`: where it is, the time, and `added`. -/
structure St (L : Type) where
  pc : Pc
  t : Time L
  added : Bool

/-- One step of `Next` in the location `loc`, returning in `origLocation`. -/
def step (s : SpecSchedule L) (loc origLocation : L) (yearLimit : Int) (st : St L) :
    FuelLoop.Step (St L) (Option (Time L)) :=
  let t := st.t
  let added := st.added
  match st.pc with
  | .wrap => if t.Year zone > yearLimit then .done none else .go ⟨.month, t, added⟩
  | .month =>
    if noBit s.Month (t.Month zone) then
      -- if we have to add a month, reset the other parts to 0
      let t := if !added then Date zone (t.Year zone) (t.Month zone) 1 0 0 0 0 loc else t
      let t := t.AddDate zone 0 1 0
      if t.Month zone = 1 then .go ⟨.wrap, t, true⟩ else .go ⟨.month, t, true⟩
    else .go ⟨.day, t, added⟩
  | .day =>
    if !dayMatches zone s t then
      let t := if !added then Date zone (t.Year zone) (t.Month zone) (t.Day zone) 0 0 0 0 loc else t
      let t := t.AddDate zone 0 0 1
      -- an hour that is no longer midnight after a change of the offset
      let t :=
        if t.Hour zone ≠ 0 then
          if t.Hour zone > 12 then t.Add ((24 - t.Hour zone) * GoTime.Hour)
          else t.Add (-t.Hour zone * GoTime.Hour)
        else t
      if t.Day zone = 1 then .go ⟨.wrap, t, true⟩ else .go ⟨.day, t, true⟩
    else .go ⟨.hour, t, added⟩
  | .hour =>
    if noBit s.Hour (t.Hour zone) then
      let t :=
        if !added then Date zone (t.Year zone) (t.Month zone) (t.Day zone) (t.Hour zone) 0 0 0 loc
        else t
      let t := t.Add GoTime.Hour
      if t.Hour zone = 0 then .go ⟨.wrap, t, true⟩ else .go ⟨.hour, t, true⟩
    else .go ⟨.minute, t, added⟩
  | .minute =>
    if noBit s.Minute (t.Minute zone) then
      let t := if !added then t.Truncate GoTime.Minute else t
      let t := t.Add GoTime.Minute
      if t.Minute zone = 0 then .go ⟨.wrap, t, true⟩ else .go ⟨.minute, t, true⟩
    else .go ⟨.second, t, added⟩
  | .second =>
    if noBit s.Second (t.Second zone) then
      let t := if !added then t.Truncate GoTime.Second else t
      let t := t.Add GoTime.Second
      if t.Second zone = 0 then .go ⟨.wrap, t, true⟩ else .go ⟨.second, t, true⟩
    else .done (some (t.In origLocation))

/-- Six steps for each second of seven years: more than `Next` takes before its five-year
limit. -/
def nextFuel : Nat := 6 * (7 * 366 * 86400 + 2)

/-- The location `Next` reads the fields in: the schedule's, or `t`'s when that is `Local`. -/
def nextLocation [DecidableEq L] (Local : L) (s : SpecSchedule L) (t : Time L) : L :=
  if s.Location = Local then t.loc else s.Location

/-- `Next`: the first time after `t` that the schedule matches, returned in `t`'s location. -/
def Next [DecidableEq L] (Local : L) (s : SpecSchedule L) (t : Time L) : Option (Time L) :=
  let origLocation := t.loc
  let loc := nextLocation Local s t
  let t := if s.Location ≠ Local then t.In s.Location else t
  -- start at the earliest possible time (the upcoming second)
  let t := t.Add (GoTime.Second - t.Nanosecond)
  let yearLimit := t.Year zone + 5
  (FuelLoop.loop (step zone s loc origLocation yearLimit) nextFuel ⟨.wrap, t, false⟩).getD none

end

end Gkit.Schedule
