import Gkit.Schedule.Field
import Gkit.ParseGo.CleanCode
import Gkit.Library.GoSlice

/-!
`Parser`, `NewParse` and `Parse` of `distributed/schedule/parser.go`, with `normalizeFields`,
`parseDescriptor`, the options of `option.go` and `Every` of `constantdelay.go`. A Go string is
its bytes. `Parse` returns `.error` for a run-time panic, and otherwise the `(Schedule, error)`
pair as an `Except`. What it reads of the `time` package (`time.Local`, `time.LoadLocation`,
`time.ParseDuration`) is a parameter: those read the machine's time zone database or are library
parsers, and none of them panics.
-/

namespace Gkit.Schedule

open GoUtf8 GoSlice

/-- `Interval`, a Go `int` of flags. -/
abbrev Interval := BitVec 64

def Second : Interval := 1

def SecondOptional : Interval := 2

def Minute : Interval := 4

def Hour : Interval := 8

def Dom : Interval := 16

def Month : Interval := 32

def Dow : Interval := 64

def DowOptional : Interval := 128

def Descriptor : Interval := 256

/-- The test `interval&flag > 0`, on Go's signed `int`. -/
def isSet (interval flag : Interval) : Bool := decide (0 < (interval &&& flag).toInt)

def places : List Interval := [Second, Minute, Hour, Dom, Month, Dow]

def defaults : List (List UInt8) :=
  [encode ['0'], encode ['0'], encode ['0'], encode ['*'], encode ['*'], encode ['*']]

/-- `Parser`, with the `interval` of its `Config`. -/
structure Parser where
  interval : Interval
deriving DecidableEq

/-- `WithInterval(options)` as it acts on the config; `none` where it panics with
"multiple optionals may not be configured". -/
def WithInterval (options : Interval) (_ : Parser) : Option Parser :=
  let optionals := (if isSet options DowOptional then 1 else 0) +
    (if isSet options SecondOptional then 1 else 0)
  if optionals > 1 then none else some ⟨options⟩

/-- `NewParse(ops...)`: each option in turn on a zero config; `none` where one panics. -/
def NewParse (ops : List (Parser → Option Parser)) : Option Parser :=
  ops.foldlM (fun p op => op p) ⟨0⟩

def standardParser : Parser := ⟨Minute ||| Hour ||| Dom ||| Month ||| Dow ||| Descriptor⟩

def secondParser : Parser :=
  ⟨Second ||| Minute ||| Hour ||| Dom ||| Month ||| DowOptional ||| Descriptor⟩

example : NewParse [WithInterval (Minute ||| Hour ||| Dom ||| Month ||| Dow ||| Descriptor)] =
    some standardParser := by decide

example : NewParse [WithInterval (SecondOptional ||| DowOptional)] = none := by decide

/-- What `Parse` reads of the `time` package: the local location, `time.LoadLocation` and
`time.ParseDuration` (in nanoseconds), each failure with its `err.Error()` text. -/
structure TimeEnv (Location : Type) where
  Local : Location
  LoadLocation : List UInt8 → Except String Location
  ParseDuration : List UInt8 → Except String Int

/-- `SpecSchedule`: the bit sets of the six fields, and the location. -/
structure SpecSchedule (Location : Type) where
  Second : BitVec 64
  Minute : BitVec 64
  Hour : BitVec 64
  Dom : BitVec 64
  Month : BitVec 64
  Dow : BitVec 64
  Location : Location

set_option linter.dupNamespace false in
/-- The two `Schedule`s that `Parse` returns: a `*SpecSchedule`, and a `ConstantDelaySchedule`
with its `Delay` in nanoseconds. -/
inductive Schedule (Location : Type) where
  | spec (s : SpecSchedule Location)
  | constantDelay (Delay : Int)

/-- `time.Second`, in nanoseconds. -/
def nsSecond : Int := 1000000000

/-- `Every(duration).Delay`: at least a second, cut to whole seconds. -/
def Every (duration : Int) : Int :=
  let duration := if duration < nsSecond then nsSecond else duration
  duration - duration.tmod nsSecond

/-- The errors of `Parse`, with what their `fmt.Errorf` texts print. -/
inductive ParseError where
  /-- `"empty spec string"`. -/
  | emptySpec
  /-- `"provided bad location %s: %v"`. -/
  | badLocation (name : List UInt8) (err : String)
  /-- `"parser does not accept descriptors: %v"`. -/
  | noDescriptors (spec : List UInt8)
  /-- `"failed to parse duration %s: %s"`. -/
  | badDuration (descriptor : List UInt8) (err : String)
  /-- `"unrecognized descriptor: %s"`. -/
  | unrecognized (descriptor : List UInt8)
  /-- `"multiple optionals may not be configured"`. -/
  | multipleOptionals
  /-- `"expected exactly %d fields, found %d: %s"`. -/
  | exactFields (min count : Nat) (fields : List (List UInt8))
  /-- `"expected %d to %d fields, found %d: %s"`. -/
  | rangeFields (min max count : Nat) (fields : List (List UInt8))
  /-- `"unknown optional field"`. -/
  | unknownOptional
  /-- An error of `getField`. -/
  | field (e : FieldError)

/-! ### Strings -/

/-- `strings.Index(s, sep)` for a one-byte `sep`: its first position, or `-1`. -/
def Index (s : List UInt8) (sep : UInt8) : Int :=
  match s.idxOf? sep with
  | some i => i
  | none => -1

/-- `strings.TrimLeftFunc(s, unicode.IsSpace)`. -/
def trimLeftSpace (s : List UInt8) : List UInt8 :=
  if h : s = [] then []
  else if ParseGo.IsSpace (decodeRune s).1 then trimLeftSpace (s.drop (decodeRune s).2) else s
termination_by s.length
decreasing_by
  have := decodeRune_width_pos h
  have := List.length_pos_iff.mpr h
  rw [List.length_drop]
  omega

/-- `strings.TrimRightFunc(s, unicode.IsSpace)`. -/
def trimRightSpace (s : List UInt8) : List UInt8 :=
  if h : s = [] then []
  else if ParseGo.IsSpace (decodeLastRune s).1 then
    trimRightSpace (s.take (s.length - (decodeLastRune s).2))
  else s
termination_by s.length
decreasing_by
  have := decodeLastRune_width_pos h
  have := List.length_pos_iff.mpr h
  rw [List.length_take]
  omega

/-- `strings.TrimSpace`: its ASCII fast path trims as `TrimFunc(s, unicode.IsSpace)` does. -/
def TrimSpace (s : List UInt8) : List UInt8 := trimRightSpace (trimLeftSpace s)

/-- The loop of `strings.FieldsFunc(s, unicode.IsSpace)` over the pairs `range` visits, with the
offset where the current field starts. -/
def fieldsFrom (s : List UInt8) : List (Nat × Char) → Option Nat → List (List UInt8)
  | [], start =>
    match start with
    | some st => [s.drop st]
    | none => []
  | (i, r) :: rest, start =>
    if ParseGo.IsSpace r then
      match start with
      | some st => (s.take i).drop st :: fieldsFrom s rest none
      | none => fieldsFrom s rest none
    else fieldsFrom s rest (some (start.getD i))

/-- `strings.Fields`: its ASCII fast path splits as `FieldsFunc(s, unicode.IsSpace)` does. -/
def Fields (s : List UInt8) : List (List UInt8) := fieldsFrom s (rangeFrom 0 s) none

/-! ### `Parse` -/

/-- The optionals of `normalizeFields`: the interval with the field each optional adds, and how
many optionals there are. -/
def withOptionals (interval : Interval) : Interval × Nat :=
  let (interval, optionals) :=
    if isSet interval SecondOptional then (interval ||| Second, 1) else (interval, 0)
  if isSet interval DowOptional then (interval ||| Dow, optionals + 1) else (interval, optionals)

/-- The loop of `normalizeFields` that fills `expandedFields`, a copy of `defaults`: the place
the interval has takes the next field, `fields[n]`. -/
def expandLoop (interval : Interval) (fields : List (List UInt8)) :
    List Interval → List (List UInt8) → Nat → Except Panic (List (List UInt8))
  | place :: places, default :: defaults, n =>
    if isSet interval place then
      match index fields n with
      | .error e => .error e
      | .ok field => (expandLoop interval fields places defaults (n + 1)).map (field :: ·)
    else (expandLoop interval fields places defaults n).map (default :: ·)
  | _, _, _ => .ok []

/-- The optional field filled in with its default when it is left out. -/
def fillOptional (interval : Interval) (fields : List (List UInt8)) (min max : Nat) :
    Except ParseError (List (List UInt8)) :=
  if min < max ∧ fields.length = min then
    if isSet interval DowOptional then .ok (fields ++ [defaults.getD 5 []])
    else if isSet interval SecondOptional then .ok (defaults.getD 0 [] :: fields)
    else .error .unknownOptional
  else .ok fields

def normalizeFields (fields : List (List UInt8)) (interval : Interval) :
    Except Panic (Except ParseError (List (List UInt8))) :=
  let (interval, optionals) := withOptionals interval
  if optionals > 1 then .ok (.error .multipleOptionals)
  else
    -- Figure out how many fields we need
    let max := (places.filter (isSet interval)).length
    let min := max - optionals
    let count := fields.length
    if count < min ∨ count > max then
      if min = max then .ok (.error (.exactFields min count fields))
      else .ok (.error (.rangeFields min max count fields))
    else
      match fillOptional interval fields min max with
      | .error e => .ok (.error e)
      | .ok fields => (expandLoop interval fields places defaults 0).map .ok

def parseDescriptor {Location : Type} (env : TimeEnv Location) (descriptor : List UInt8)
    (loc : Location) : Except Panic (Except ParseError (Schedule Location)) :=
  if descriptor = encode "@yearly".toList ∨ descriptor = encode "@annually".toList then
    .ok (.ok (.spec ⟨1#64 <<< seconds.min, 1#64 <<< minutes.min, 1#64 <<< hours.min,
      1#64 <<< dom.min, 1#64 <<< months.min, all dow, loc⟩))
  else if descriptor = encode "@monthly".toList then
    .ok (.ok (.spec ⟨1#64 <<< seconds.min, 1#64 <<< minutes.min, 1#64 <<< hours.min,
      1#64 <<< dom.min, all months, all dow, loc⟩))
  else if descriptor = encode "@weekly".toList then
    .ok (.ok (.spec ⟨1#64 <<< seconds.min, 1#64 <<< minutes.min, 1#64 <<< hours.min,
      all dom, all months, 1#64 <<< dow.min, loc⟩))
  else if descriptor = encode "@daily".toList ∨ descriptor = encode "@midnight".toList then
    .ok (.ok (.spec ⟨1#64 <<< seconds.min, 1#64 <<< minutes.min, 1#64 <<< hours.min,
      all dom, all months, all dow, loc⟩))
  else if descriptor = encode "@hourly".toList then
    .ok (.ok (.spec ⟨1#64 <<< seconds.min, 1#64 <<< minutes.min, all hours,
      all dom, all months, all dow, loc⟩))
  else if (encode "@every ".toList).isPrefixOf descriptor then
    match substr descriptor (encode "@every ".toList).length descriptor.length with
    | .error e => .error e
    | .ok text =>
      match env.ParseDuration text with
      | .error err => .ok (.error (.badDuration descriptor err))
      | .ok duration => .ok (.ok (.constantDelay (Every duration)))
  else .ok (.error (.unrecognized descriptor))

/-- The timezone prefix of `Parse`: after `TZ=` or `CRON_TZ=` the name runs from the first `=`
to the first space, and the spec goes on after that space. -/
def parseTimezone {Location : Type} (env : TimeEnv Location) (spec : List UInt8) :
    Except Panic (Except ParseError (Location × List UInt8)) :=
  if (encode "TZ=".toList).isPrefixOf spec ∨ (encode "CRON_TZ=".toList).isPrefixOf spec then
    let i := Index spec 32
    let eq := Index spec 61
    match substr spec (eq + 1) i with
    | .error e => .error e
    | .ok name =>
      match env.LoadLocation name with
      -- the message slices `spec[eq+1:i]` once more, with the bounds just checked
      | .error err => .ok (.error (.badLocation name err))
      | .ok loc => (substr spec i spec.length).map fun rest => .ok (loc, TrimSpace rest)
  else .ok (.ok (env.Local, spec))

/-- The six `field(fields[k], bounds)` calls of `Parse`: each index is taken, and the first
error of `getField` is the one returned. -/
def parseFields {Location : Type} (fields : List (List UInt8)) (loc : Location) :
    Except Panic (Except ParseError (Schedule Location)) := do
  let f0 ← index fields 0
  let f1 ← index fields 1
  let f2 ← index fields 2
  let f3 ← index fields 3
  let f4 ← index fields 4
  let f5 ← index fields 5
  pure <| Except.mapError .field do
    let second ← getField f0 seconds
    let minute ← getField f1 minutes
    let hour ← getField f2 hours
    let dayofmonth ← getField f3 dom
    let month ← getField f4 months
    let dayofweek ← getField f5 dow
    pure (.spec ⟨second, minute, hour, dayofmonth, month, dayofweek, loc⟩)

/-- `Parse` after the timezone prefix: a descriptor, or the fields. -/
def parseBody {Location : Type} (env : TimeEnv Location) (p : Parser) (loc : Location)
    (spec : List UInt8) : Except Panic (Except ParseError (Schedule Location)) :=
  -- Handle named schedules (descriptors), if configured
  if (encode "@".toList).isPrefixOf spec then
    if p.interval &&& Descriptor = 0 then .ok (.error (.noDescriptors spec))
    else parseDescriptor env spec loc
  else
    match normalizeFields (Fields spec) p.interval with
    | .error e => .error e
    | .ok (.error e) => .ok (.error e)
    | .ok (.ok fields) => parseFields fields loc

def Parse {Location : Type} (env : TimeEnv Location) (p : Parser) (spec : List UInt8) :
    Except Panic (Except ParseError (Schedule Location)) :=
  if spec.length = 0 then .ok (.error .emptySpec)
  else
    match parseTimezone env spec with
    | .error e => .error e
    | .ok (.error e) => .ok (.error e)
    | .ok (.ok (loc, spec)) => parseBody env p loc spec

def NewParseWithStandard {Location : Type} (env : TimeEnv Location) (standardSpec : List UInt8) :
    Except Panic (Except ParseError (Schedule Location)) :=
  Parse env standardParser standardSpec

def NewParseWithSecondParser {Location : Type} (env : TimeEnv Location)
    (standardSpec : List UInt8) : Except Panic (Except ParseError (Schedule Location)) :=
  Parse env secondParser standardSpec

/-! ### Where `Parse` panics -/

theorem idxOf?_append {pre rest : List UInt8} {sep : UInt8} :
    (pre ++ rest).idxOf? sep = (pre.idxOf? sep).or ((rest.idxOf? sep).map (· + pre.length)) :=
  List.findIdx?_append

theorem Index_append_of_some {pre rest : List UInt8} {sep : UInt8} {k : Nat}
    (h : pre.idxOf? sep = some k) : Index (pre ++ rest) sep = k := by
  unfold Index
  rw [idxOf?_append, h]
  rfl

theorem Index_append_of_mem {pre rest : List UInt8} {sep : UInt8} (h : pre.idxOf? sep = none)
    (hmem : sep ∈ rest) : ∃ j : Nat, Index (pre ++ rest) sep = j + pre.length ∧ j < rest.length := by
  obtain ⟨j, hj⟩ := Option.ne_none_iff_exists'.mp (mt List.idxOf?_eq_none_iff.mp (not_not.mpr hmem))
  obtain ⟨hlt, -⟩ := List.idxOf?_eq_some_iff.mp hj
  refine ⟨j, ?_, hlt⟩
  unfold Index
  rw [idxOf?_append, h, hj]
  simp

theorem Index_append_of_not_mem {pre rest : List UInt8} {sep : UInt8}
    (h : pre.idxOf? sep = none) (hmem : sep ∉ rest) : Index (pre ++ rest) sep = -1 := by
  unfold Index
  rw [idxOf?_append, h, List.idxOf?_eq_none_iff.mpr hmem]
  rfl

section
variable {Location : Type} (env : TimeEnv Location)

/-- After a timezone prefix `pre` that ends at its first `=` and holds no space, the cut of
`parseTimezone` is out of range exactly when no space follows. -/
theorem parseTimezone_cut_panics {pre rest : List UInt8}
    (hpre : (encode "TZ=".toList).isPrefixOf (pre ++ rest) ∨
      (encode "CRON_TZ=".toList).isPrefixOf (pre ++ rest))
    (heq : pre.idxOf? 61 = some (pre.length - 1)) (hlen : 0 < pre.length)
    (hsp : pre.idxOf? 32 = none) :
    (∃ e, parseTimezone env (pre ++ rest) = .error e) ↔ (32 : UInt8) ∉ rest := by
  unfold parseTimezone
  rw [if_pos hpre]
  dsimp only
  rw [Index_append_of_some heq]
  have hlo : ((pre.length - 1 : Nat) : Int) + 1 = pre.length := by omega
  rw [hlo]
  by_cases hmem : (32 : UInt8) ∈ rest
  case pos =>
    obtain ⟨j, hj, hjlt⟩ := Index_append_of_mem hsp hmem
    rw [hj]
    obtain ⟨name, hname⟩ := (@substr_isOk_iff _ (pre ++ rest) pre.length
      (j + pre.length)).mpr ⟨by omega, by omega, by simp; omega⟩
    obtain ⟨t, ht⟩ := (@substr_isOk_iff _ (pre ++ rest) (j + pre.length)
      (pre ++ rest).length).mpr ⟨by omega, by simp; omega, Int.le_refl _⟩
    rw [hname]
    dsimp only
    rw [ht]
    cases env.LoadLocation name <;> simp [hmem, Except.map]
  case neg =>
    have hbad : substr (pre ++ rest) pre.length (-1) = .error .bounds := by
      unfold substr
      rw [if_neg (by omega)]
    rw [Index_append_of_not_mem hsp hmem, hbad]
    simp [hmem]

/-- A timezone prefix `pre` of the spec: `parseTimezone` panics exactly when the spec has no
space. -/
theorem parseTimezone_lead_panics {pre spec : List UInt8}
    (hpre : (encode "TZ=".toList).isPrefixOf spec ∨ (encode "CRON_TZ=".toList).isPrefixOf spec)
    (hp : pre.isPrefixOf spec) (heq : pre.idxOf? 61 = some (pre.length - 1))
    (hlen : 0 < pre.length) (hsp : pre.idxOf? 32 = none) :
    (∃ e, parseTimezone env spec = .error e) ↔ (32 : UInt8) ∉ spec := by
  obtain ⟨rest, rfl⟩ := List.isPrefixOf_iff_prefix.mp hp
  rw [parseTimezone_cut_panics env hpre heq hlen hsp, List.mem_append, not_or,
    and_iff_right (List.idxOf?_eq_none_iff.mp hsp)]

end

/-! ### What follows the timezone never panics -/

/-- The loop of `normalizeFields` finds a field for every place the interval has, when there are
enough of them from `n` on. -/
theorem expandLoop_isOk (interval : Interval) (fields : List (List UInt8)) :
    ∀ (ps : List Interval) (ds : List (List UInt8)) (n : Nat), ps.length ≤ ds.length →
      n + (ps.filter (isSet interval)).length ≤ fields.length →
      ∃ out, expandLoop interval fields ps ds n = .ok out ∧ out.length = ps.length
  | [], ds, n, _, _ => by cases ds <;> simp [expandLoop]
  | place :: ps, [], n, hlen, _ => by simp at hlen
  | place :: ps, d :: ds, n, hlen, hn => by
    simp only [List.length_cons, Nat.add_le_add_iff_right] at hlen
    by_cases hs : isSet interval place
    case pos =>
      rw [List.filter_cons_of_pos hs, List.length_cons] at hn
      obtain ⟨field, hfield⟩ := @index_isOk _ fields n (by omega) (by omega)
      obtain ⟨out, hout, hl⟩ := expandLoop_isOk interval fields ps ds (n + 1) hlen (by omega)
      refine ⟨field :: out, ?_, by simp [hl]⟩
      rw [expandLoop, if_pos hs, hfield]
      simp [hout, Except.map]
    case neg =>
      rw [List.filter_cons_of_neg hs] at hn
      obtain ⟨out, hout, hl⟩ := expandLoop_isOk interval fields ps ds n hlen hn
      refine ⟨d :: out, ?_, by simp [hl]⟩
      rw [expandLoop, if_neg hs, hout]
      rfl

/-- With the count of fields between `min` and `max`, one apart at most, the optional field
filled in makes `max` fields. -/
theorem fillOptional_length {interval : Interval} {fields fs : List (List UInt8)}
    {min max : Nat} (hmin : min ≤ fields.length) (hmax : fields.length ≤ max)
    (hgap : max ≤ min + 1) (h : fillOptional interval fields min max = .ok fs) :
    fs.length = max := by
  unfold fillOptional at h
  split_ifs at h with hfill hdow hsec
  · cases h
    simp only [List.length_append, List.length_singleton]
    omega
  · cases h
    simp only [List.length_cons]
    omega
  · cases h
    omega

/-- `normalizeFields` never panics, and the fields it returns are one for each place. -/
theorem normalizeFields_isOk (fields : List (List UInt8)) (interval : Interval) :
    ∃ r, normalizeFields fields interval = .ok r ∧ ∀ fs, r = .ok fs → fs.length = places.length := by
  unfold normalizeFields
  generalize withOptionals interval = w
  obtain ⟨interval, optionals⟩ := w
  dsimp only
  split_ifs with hopt hcount heq
  · exact ⟨_, rfl, fun _ h => by cases h⟩
  · exact ⟨_, rfl, fun _ h => by cases h⟩
  · exact ⟨_, rfl, fun _ h => by cases h⟩
  · cases hf : fillOptional interval fields
        ((places.filter (isSet interval)).length - optionals)
        (places.filter (isSet interval)).length with
    | error e => exact ⟨_, rfl, fun _ h => by cases h⟩
    | ok fs =>
      have hfs := fillOptional_length (by omega) (by omega) (by omega) hf
      obtain ⟨out, hout, hl⟩ := expandLoop_isOk interval fs places defaults 0 (by decide)
        (by omega)
      refine ⟨.ok out, ?_, fun _ h => by cases h; exact hl⟩
      simp [hout, Except.map]

theorem parseFields_isOk {Location : Type} {fields : List (List UInt8)}
    (hlen : fields.length = places.length) (loc : Location) :
    ∃ r, parseFields fields loc = .ok r := by
  simp only [places, List.length_cons, List.length_nil] at hlen
  obtain ⟨f0, h0⟩ := @index_isOk _ fields 0 (by omega) (by omega)
  obtain ⟨f1, h1⟩ := @index_isOk _ fields 1 (by omega) (by omega)
  obtain ⟨f2, h2⟩ := @index_isOk _ fields 2 (by omega) (by omega)
  obtain ⟨f3, h3⟩ := @index_isOk _ fields 3 (by omega) (by omega)
  obtain ⟨f4, h4⟩ := @index_isOk _ fields 4 (by omega) (by omega)
  obtain ⟨f5, h5⟩ := @index_isOk _ fields 5 (by omega) (by omega)
  simp only [parseFields, h0, h1, h2, h3, h4, h5, ok_bind]
  exact ⟨_, rfl⟩

/-- `parseDescriptor` never panics: `descriptor[len(every):]` follows the prefix test. -/
theorem parseDescriptor_isOk {Location : Type} (env : TimeEnv Location)
    (descriptor : List UInt8) (loc : Location) :
    ∃ r, parseDescriptor env descriptor loc = .ok r := by
  unfold parseDescriptor
  split_ifs with h1 h2 h3 h4 h5 hevery
  any_goals exact ⟨_, rfl⟩
  have hle := (List.isPrefixOf_iff_prefix.mp hevery).length_le
  obtain ⟨text, ht⟩ := (@substr_isOk_iff _ descriptor (encode "@every ".toList).length
    descriptor.length).mpr
      ⟨by omega, by omega, Int.le_refl _⟩
  rw [ht]
  dsimp only
  cases env.ParseDuration text <;> exact ⟨_, rfl⟩

/-- What `Parse` does after the timezone prefix never panics. -/
theorem parseBody_isOk {Location : Type} (env : TimeEnv Location) (p : Parser)
    (loc : Location) (spec : List UInt8) : ∃ r, parseBody env p loc spec = .ok r := by
  unfold parseBody
  split_ifs
  · exact ⟨_, rfl⟩
  · exact parseDescriptor_isOk env spec loc
  · obtain ⟨r, hr, hlen⟩ := normalizeFields_isOk (Fields spec) p.interval
    rw [hr]
    cases r with
    | error e => exact ⟨_, rfl⟩
    | ok fields => exact parseFields_isOk (hlen fields rfl) loc

/-! ### `Parse` -/

/-- `parseTimezone` panics exactly on a timezone prefix with no space anywhere after it. -/
theorem parseTimezone_panics_iff {Location : Type} (env : TimeEnv Location) (spec : List UInt8) :
    (∃ e, parseTimezone env spec = .error e) ↔
      ((encode "TZ=".toList).isPrefixOf spec ∨ (encode "CRON_TZ=".toList).isPrefixOf spec) ∧
        (32 : UInt8) ∉ spec := by
  by_cases hpre : (encode "TZ=".toList).isPrefixOf spec ∨
      (encode "CRON_TZ=".toList).isPrefixOf spec
  case neg =>
    simp only [parseTimezone, if_neg hpre, reduceCtorEq, exists_false, false_iff]
    exact fun h => hpre h.1
  case pos =>
    rw [and_iff_right hpre]
    rcases hpre with htz | hcron
    · exact parseTimezone_lead_panics env (.inl htz) htz (by decide) (by decide)
        (by decide)
    · exact parseTimezone_lead_panics env (.inr hcron) hcron (by decide) (by decide)
        (by decide)

theorem parse_panics_iff {Location : Type} (env : TimeEnv Location) (p : Parser)
    (spec : List UInt8) :
    (∃ e, Parse env p spec = .error e) ↔
      ((encode "TZ=".toList).isPrefixOf spec ∨ (encode "CRON_TZ=".toList).isPrefixOf spec) ∧
        (32 : UInt8) ∉ spec := by
  rw [← parseTimezone_panics_iff env spec]
  unfold Parse
  by_cases h0 : spec.length = 0
  case pos =>
    rw [List.length_eq_zero_iff.mp h0]
    simp [parseTimezone]
  case neg =>
    rw [if_neg h0]
    cases hz : parseTimezone env spec with
    | error e => simp
    | ok r =>
      cases r with
      | error e => simp
      | ok lr =>
        obtain ⟨r, hr⟩ := parseBody_isOk env p lr.1 lr.2
        simp [hr]

/-! ### The schedules `Parse` returns -/

/-- The six bit sets of a schedule lie within their fields' bounds, but for the star bit: what
`Next` takes for granted when it tests them. -/
def SpecSchedule.WellFormed {Location : Type} (s : SpecSchedule Location) : Prop :=
  InBounds seconds s.Second ∧ InBounds minutes s.Minute ∧ InBounds hours s.Hour ∧
    InBounds dom s.Dom ∧ InBounds months s.Month ∧ InBounds dow s.Dow

theorem inBounds_one_shiftLeft {r : Bounds} (hr : r.min ≤ r.max) (h64 : r.min < 64) :
    InBounds r (1#64 <<< r.min) := by
  intro v hv
  rw [getLsbD_one_shiftLeft v h64, decide_eq_true_eq] at hv
  exact .inr ⟨by omega, by omega⟩

theorem inBounds_all {r : Bounds} (hmax : r.max ≤ 62) : InBounds r (all r) := by
  intro v hv
  rw [all, BitVec.getLsbD_or, getLsbD_getBits v (Nat.le_refl 1) (by omega), getLsbD_starBit,
    Bool.or_eq_true, decide_eq_true_eq, decide_eq_true_eq] at hv
  omega

theorem parseDescriptor_wellFormed {Location : Type} {env : TimeEnv Location}
    {descriptor : List UInt8} {loc : Location} {s : SpecSchedule Location}
    (h : parseDescriptor env descriptor loc = .ok (.ok (.spec s))) : s.WellFormed := by
  unfold parseDescriptor at h
  split_ifs at h
  any_goals
    cases h
    refine ⟨?_, ?_, ?_, ?_, ?_, ?_⟩ <;>
      first
      | exact inBounds_one_shiftLeft (by decide) (by decide)
      | exact inBounds_all (by decide)
  · -- `@every ` gives a constant delay
    split at h
    · cases h
    · split at h <;> cases h
  · cases h

theorem parseFields_wellFormed {Location : Type} {fields : List (List UInt8)} {loc : Location}
    {s : SpecSchedule Location} (h : parseFields fields loc = .ok (.ok (.spec s))) :
    s.WellFormed := by
  simp only [parseFields, bind_eq_ok_iff, pure, Except.pure, Except.ok.injEq,
    mapError_eq_ok_iff] at h
  obtain ⟨f0, -, f1, -, f2, -, f3, -, f4, -, f5, -, second, h0, minute, h1, hour, h2, dayofmonth,
    h3, month, h4, dayofweek, h5, h⟩ := h
  cases h
  exact ⟨getField_inBounds h0 (by decide), getField_inBounds h1 (by decide),
    getField_inBounds h2 (by decide), getField_inBounds h3 (by decide),
    getField_inBounds h4 (by decide), getField_inBounds h5 (by decide)⟩

/-- Every schedule `Parse` builds keeps each field's bits within its bounds, but for the star
bit. -/
theorem parse_wellFormed {Location : Type} {env : TimeEnv Location} {p : Parser}
    {spec : List UInt8} {s : SpecSchedule Location}
    (h : Parse env p spec = .ok (.ok (.spec s))) : s.WellFormed := by
  unfold Parse at h
  split_ifs at h
  · cases h
  split at h
  · cases h
  · cases h
  · unfold parseBody at h
    split_ifs at h
    · cases h
    · exact parseDescriptor_wellFormed h
    · split at h
      · cases h
      · cases h
      · exact parseFields_wellFormed h

/-- The spec `"TZ=UTC"` makes `Parse` panic, whatever the parser and the time zone database. -/
theorem parse_panics_iff_tz :
    ∃ e, Parse (⟨(), fun _ => .ok (), fun _ => .ok 0⟩ : TimeEnv Unit) secondParser
      (encode "TZ=UTC".toList) = .error e :=
  (parse_panics_iff _ _ _).mpr ⟨by decide, by decide⟩

end Gkit.Schedule
