import Gkit.Library.GoUtf8
import Gkit.Library.Strconv

/-!
`getField` and `getRange` of `distributed/schedule/parser.go`. A cron field is a comma-separated
list of ranges; each range sets, in a `uint64` (`BitVec 64` here, whose shifts by 64 or more
give zero as Go's do), the bits of the values it names, and bit 63, `starBit`, when it is a
star. A Go string is its bytes. `getRange` is cut where its Go body has its stages: the bounds
before the `/`, the step after it, and the checks.
-/

namespace Gkit.Schedule

open GoUtf8 Strconv

/-- `bounds`: the values of a field, and the map from names to values (`none` for `nil`). -/
structure Bounds where
  min : Nat
  max : Nat
  names : Option (List (List UInt8 × Nat))

def seconds : Bounds := ⟨0, 59, none⟩

def minutes : Bounds := ⟨0, 59, none⟩

def hours : Bounds := ⟨0, 23, none⟩

def dom : Bounds := ⟨1, 31, none⟩

def months : Bounds :=
  ⟨1, 12, some [(encode "jan".toList, 1), (encode "feb".toList, 2), (encode "mar".toList, 3),
    (encode "apr".toList, 4), (encode "may".toList, 5), (encode "jun".toList, 6),
    (encode "jul".toList, 7), (encode "aug".toList, 8), (encode "sep".toList, 9),
    (encode "oct".toList, 10), (encode "nov".toList, 11), (encode "dec".toList, 12)]⟩

def dow : Bounds :=
  ⟨0, 6, some [(encode "sun".toList, 0), (encode "mon".toList, 1), (encode "tue".toList, 2),
    (encode "wed".toList, 3), (encode "thu".toList, 4), (encode "fri".toList, 5),
    (encode "sat".toList, 6)]⟩

/-- `starBit = 1 << 63`. -/
def starBit : BitVec 64 := 1#64 <<< 63

/-- The bytes of `','`, `'-'` and `'/'`, and the texts `"*"` and `"?"`. -/
def comma : UInt8 := 44

def hyphen : UInt8 := 45

def slash : UInt8 := 47

def starText : List UInt8 := [42]

def questionText : List UInt8 := [63]

/-- The errors of `getRange`, with what their `fmt.Errorf` texts print. -/
inductive FieldError where
  /-- `"failed to parse int from %s: %s"`. -/
  | parseInt (expr : List UInt8)
  /-- `"negative number (%d) not allowed: %s"`. -/
  | negative (num : Int) (expr : List UInt8)
  /-- `"too many hyphens: %s"`. -/
  | tooManyHyphens (expr : List UInt8)
  /-- `"too many slashes: %s"`. -/
  | tooManySlashes (expr : List UInt8)
  /-- `"beginning of range (%d) below minimum (%d): %s"`. -/
  | belowMinimum (start min : Nat) (expr : List UInt8)
  /-- `"end of range (%d) above maximum (%d): %s"`. -/
  | aboveMaximum (stop max : Nat) (expr : List UInt8)
  /-- `"beginning of range (%d) beyond end of range (%d): %s"`. -/
  | beyondEnd (start stop : Nat) (expr : List UInt8)
  /-- `"step of range should be a positive number: %s"`. -/
  | nonPositiveStep (expr : List UInt8)
  deriving DecidableEq, Repr

def mustParseInt (expr : List UInt8) : Except FieldError Nat :=
  match Atoi expr with
  | none => .error (.parseInt expr)
  | some num => if num < 0 then .error (.negative num expr) else .ok num.toNat

/-- `strings.ToLower` on the ASCII letters, the only ones the names hold. -/
def toLower (s : List UInt8) : List UInt8 :=
  s.map fun b => if 65 ≤ b ∧ b ≤ 90 then b + 32 else b

/-- `names[strings.ToLower(expr)]`, `none` for a `nil` map or a missing name. -/
def lookupName (names : Option (List (List UInt8 × Nat))) (expr : List UInt8) : Option Nat :=
  names.bind fun m => m.lookup (toLower expr)

def parseIntOrName (expr : List UInt8) (names : Option (List (List UInt8 × Nat))) :
    Except FieldError Nat :=
  match lookupName names expr with
  | some namedInt => .ok namedInt
  | none => mustParseInt expr

/-- The loop `for i := min; i <= max; i += step { bits |= 1 << i }` of `getBits` from `i`, for
at most `fuel` more rounds. -/
def bitsLoop (max step : Nat) : Nat → Nat → BitVec 64 → BitVec 64
  | 0, _, bits => bits
  | fuel + 1, i, bits =>
    if i ≤ max then bitsLoop max step fuel (i + step) (bits ||| 1#64 <<< i) else bits

/-- `getBits`. With a step of at least one the loop runs at most `max + 1 - min` times;
`getRange` never calls it with a step of zero, for which Go's loop does not end. -/
def getBits (min max step : Nat) : BitVec 64 :=
  if step = 1 then ~~~(BitVec.allOnes 64 <<< (max + 1)) &&& (BitVec.allOnes 64 <<< min)
  else bitsLoop max step (max + 1 - min) min 0

def all (r : Bounds) : BitVec 64 := getBits r.min r.max 1 ||| starBit

/-- The part of `getRange` before the `/`: `start`, `end` and `extra` from `lowAndHigh`. -/
def rangeBounds (expr : List UInt8) (r : Bounds) (lowAndHigh : List (List UInt8)) :
    Except FieldError (Nat × Nat × BitVec 64) :=
  let low := lowAndHigh.headD []
  if low = starText ∨ low = questionText then .ok (r.min, r.max, starBit)
  else
    match parseIntOrName low r.names with
    | .error e => .error e
    | .ok start =>
      match lowAndHigh.length with
      | 1 => .ok (start, start, 0)
      | 2 =>
        match parseIntOrName (lowAndHigh.getD 1 []) r.names with
        | .error e => .error e
        | .ok stop => .ok (start, stop, 0)
      | _ => .error (.tooManyHyphens expr)

/-- The part of `getRange` after the `/`: the step, and `end` and `extra` as the step leaves
them. -/
def rangeStep (expr : List UInt8) (r : Bounds) (singleDigit : Bool)
    (rangeAndStep : List (List UInt8)) (stop : Nat) (extra : BitVec 64) :
    Except FieldError (Nat × Nat × BitVec 64) :=
  match rangeAndStep.length with
  | 1 => .ok (1, stop, extra)
  | 2 =>
    match mustParseInt (rangeAndStep.getD 1 []) with
    | .error e => .error e
    -- "N/step" means "N-max/step"
    | .ok step => .ok (step, if singleDigit then r.max else stop, if step > 1 then 0 else extra)
  | _ => .error (.tooManySlashes expr)

/-- The checks at the end of `getRange`, and its result. -/
def checkRange (expr : List UInt8) (r : Bounds) (start stop step : Nat) (extra : BitVec 64) :
    Except FieldError (BitVec 64) :=
  if start < r.min then .error (.belowMinimum start r.min expr)
  else if stop > r.max then .error (.aboveMaximum stop r.max expr)
  else if start > stop then .error (.beyondEnd start stop expr)
  else if step = 0 then .error (.nonPositiveStep expr)
  else .ok (getBits start stop step ||| extra)

def getRange (expr : List UInt8) (r : Bounds) : Except FieldError (BitVec 64) :=
  let rangeAndStep := expr.splitOn slash
  let lowAndHigh := (rangeAndStep.headD []).splitOn hyphen
  match rangeBounds expr r lowAndHigh with
  | .error e => .error e
  | .ok (start, stop, extra) =>
    match rangeStep expr r (lowAndHigh.length == 1) rangeAndStep stop extra with
    | .error e => .error e
    | .ok (step, stop, extra) => checkRange expr r start stop step extra

/-- `strings.FieldsFunc(field, func(r rune) bool { return r == ',' })`: the pieces between the
commas, without the empty ones. -/
def fieldsComma (field : List UInt8) : List (List UInt8) := (field.splitOn comma).filter (· ≠ [])

/-- The loop of `getField` over the ranges. Go returns the bits so far with an error; no caller
reads them. -/
def fieldsLoop (r : Bounds) : List (List UInt8) → BitVec 64 → Except FieldError (BitVec 64)
  | [], bits => .ok bits
  | expr :: rest, bits =>
    match getRange expr r with
    | .error e => .error e
    | .ok bit => fieldsLoop r rest (bits ||| bit)

def getField (field : List UInt8) (r : Bounds) : Except FieldError (BitVec 64) :=
  fieldsLoop r (fieldsComma field) 0

/-! ### The grammar of a range -/

/-- `text` is a name of `r`, or, when it names nothing, a number that `strconv.Atoi` reads. -/
def ValueOf (r : Bounds) (text : List UInt8) (n : Nat) : Prop :=
  lookupName r.names text = some n ∨ lookupName r.names text = none ∧ Atoi text = some (n : Int)

/-- The part of a range before its `/`, split at the hyphens, and the start, end and star flag
it gives: a star (`*` or `?`, with whatever follows a hyphen after it) for all of `r`, a
value `N`, or `N-M`. -/
def BoundsForm (r : Bounds) (lowAndHigh : List (List UInt8)) (start stop : Nat) (star : Bool) :
    Prop :=
  ((lowAndHigh.headD [] = starText ∨ lowAndHigh.headD [] = questionText) ∧
      star = true ∧ start = r.min ∧ stop = r.max) ∨
    (∃ n, lowAndHigh = [n] ∧ ¬(n = starText ∨ n = questionText) ∧ star = false ∧
      ValueOf r n start ∧ stop = start) ∨
    (∃ n m, lowAndHigh = [n, m] ∧ ¬(n = starText ∨ n = questionText) ∧ star = false ∧
      ValueOf r n start ∧ ValueOf r m stop)

/-- The part of a range after its `/`: nothing, for a step of one, or one number. -/
def StepForm (stepPart : List (List UInt8)) (step : Nat) : Prop :=
  stepPart = [] ∧ step = 1 ∨ ∃ s, stepPart = [s] ∧ Atoi s = some (step : Int)

/-- What a range denotes: its first and last value, its step, and whether it is a star. -/
structure RangeSpec where
  start : Nat
  stop : Nat
  step : Nat
  star : Bool

/-- The grammar `("*"|"?")[-…][/S]`, `N[/S]`, `N-M[/S]` of a range and the range it denotes;
a single `N` with a step runs to `r.max`. -/
def RangeForm (r : Bounds) (expr : List UInt8) (f : RangeSpec) : Prop :=
  ∃ rng stepPart stop, expr.splitOn slash = rng :: stepPart ∧ StepForm stepPart f.step ∧
    BoundsForm r (rng.splitOn hyphen) f.start stop f.star ∧
    f.stop = if stepPart ≠ [] ∧ (rng.splitOn hyphen).length = 1 then r.max else stop

/-- The range lies within the bounds and steps forward. -/
def RangeSpec.Valid (f : RangeSpec) (r : Bounds) : Prop :=
  r.min ≤ f.start ∧ f.start ≤ f.stop ∧ f.stop ≤ r.max ∧ 1 ≤ f.step

/-- The values the range runs through. -/
def RangeSpec.Hits (f : RangeSpec) (v : Nat) : Prop :=
  f.start ≤ v ∧ v ≤ f.stop ∧ (v - f.start) % f.step = 0

/-- The star bit a range keeps: a star with a step of one. -/
def RangeSpec.extra (f : RangeSpec) : BitVec 64 :=
  if f.star = true ∧ f.step ≤ 1 then starBit else 0

def RangeSpec.bits (f : RangeSpec) : BitVec 64 := getBits f.start f.stop f.step ||| f.extra

/-! ### The bits of `getBits` -/

theorem getLsbD_starBit (v : Nat) : starBit.getLsbD v = decide (v = 63) := by
  rw [starBit, BitVec.getLsbD_shiftLeft, BitVec.getLsbD_one]
  by_cases h : v = 63 <;> simp [h]
  omega

theorem getLsbD_one_shiftLeft {i : Nat} (v : Nat) (hi : i < 64) :
    (1#64 <<< i).getLsbD v = decide (v = i) := by
  rw [BitVec.getLsbD_shiftLeft, BitVec.getLsbD_one]
  by_cases h : v = i <;> simp [h] <;> omega

/-- Stepping from `i` by `step` reaches `v` exactly when `v` is `i` or is reached from
`i + step`. -/
theorem stride_iff {i v max step : Nat} (hstep : 1 ≤ step) (hi : i ≤ max) :
    (i ≤ v ∧ v ≤ max ∧ (v - i) % step = 0) ↔
      v = i ∨ (i + step ≤ v ∧ v ≤ max ∧ (v - (i + step)) % step = 0) := by
  constructor
  · rintro ⟨hle, hmax, hmod⟩
    by_cases hv : v < i + step
    · left
      have : (v - i) % step = v - i := Nat.mod_eq_of_lt (by omega)
      omega
    · right
      have hsub : v - i = v - (i + step) + step := by omega
      rw [hsub, Nat.add_mod_right] at hmod
      exact ⟨by omega, hmax, hmod⟩
  · rintro (rfl | ⟨hle, hmax, hmod⟩)
    · simp [hi]
    · have hsub : v - i = v - (i + step) + step := by omega
      rw [hsub, Nat.add_mod_right]
      exact ⟨by omega, hmax, hmod⟩

/-- The loop of `getBits` adds to `bits` the values from `i` to `max` in steps of `step`,
when its fuel covers them. -/
theorem getLsbD_bitsLoop {max step v : Nat} (hstep : 1 ≤ step) (hmax : max < 64) :
    ∀ fuel i bits, max + 1 - i ≤ fuel →
      (bitsLoop max step fuel i bits).getLsbD v =
        (bits.getLsbD v || decide (i ≤ v ∧ v ≤ max ∧ (v - i) % step = 0)) := by
  intro fuel
  induction fuel with
  | zero =>
    intro i bits hfuel
    have hnone : ¬(i ≤ v ∧ v ≤ max ∧ (v - i) % step = 0) := by omega
    simp [bitsLoop, hnone]
  | succ fuel ih =>
    intro i bits hfuel
    by_cases hi : i ≤ max
    · rw [bitsLoop, if_pos hi, ih (i + step) _ (by omega), BitVec.getLsbD_or,
        getLsbD_one_shiftLeft v (by omega)]
      rw [Bool.eq_iff_iff]
      simp only [Bool.or_eq_true, decide_eq_true_eq, or_assoc]
      rw [stride_iff hstep hi]
    · have hnone : ¬(i ≤ v ∧ v ≤ max ∧ (v - i) % step = 0) := by omega
      simp [bitsLoop, hi, hnone]

/-- The bits `getBits` sets, by its shifts for a step of one and by its loop otherwise: the
values from `min` to `max` in steps of `step`. -/
theorem getLsbD_getBits {min max step : Nat} (v : Nat) (hstep : 1 ≤ step) (hmax : max < 64) :
    (getBits min max step).getLsbD v = decide (min ≤ v ∧ v ≤ max ∧ (v - min) % step = 0) := by
  unfold getBits
  split
  case isTrue h1 =>
    subst h1
    simp only [BitVec.getLsbD_and, BitVec.getLsbD_not, BitVec.getLsbD_shiftLeft,
      BitVec.getLsbD_allOnes, Nat.mod_one]
    by_cases h : min ≤ v ∧ v ≤ max <;> simp [h] <;> omega
  case isFalse =>
    rw [getLsbD_bitsLoop hstep hmax _ _ _ (Nat.le_refl _)]
    simp

example : getBits 1 5 2 = 0x2a#64 := by decide

/-! ### The stages of `getRange` -/

theorem mustParseInt_eq_ok {expr : List UInt8} {n : Nat} :
    mustParseInt expr = .ok n ↔ Atoi expr = some (n : Int) := by
  unfold mustParseInt
  split
  case h_1 h => simp [h]
  case h_2 num h =>
    rw [h]
    split <;> simp <;> omega

theorem parseIntOrName_eq_ok {r : Bounds} {text : List UInt8} {n : Nat} :
    parseIntOrName text r.names = .ok n ↔ ValueOf r text n := by
  unfold parseIntOrName ValueOf
  cases lookupName r.names text <;> simp [mustParseInt_eq_ok]

/-- A range whose head is a star is a star, whatever follows it. -/
theorem boundsForm_star {r : Bounds} {lowAndHigh : List (List UInt8)} {start stop : Nat}
    {star : Bool}
    (hs : lowAndHigh.headD [] = starText ∨ lowAndHigh.headD [] = questionText) :
    BoundsForm r lowAndHigh start stop star ↔ star = true ∧ start = r.min ∧ stop = r.max := by
  constructor
  · rintro (⟨-, h⟩ | ⟨n, rfl, hn, -⟩ | ⟨n, m, rfl, hn, -⟩)
    · exact h
    · exact absurd hs hn
    · exact absurd hs hn
  · intro h
    exact .inl ⟨hs, h⟩

/-- A range whose head is no star is `N` or `N-M`. -/
theorem boundsForm_number {r : Bounds} {lowAndHigh : List (List UInt8)} {start stop : Nat}
    {star : Bool}
    (hs : ¬(lowAndHigh.headD [] = starText ∨ lowAndHigh.headD [] = questionText)) :
    BoundsForm r lowAndHigh start stop star ↔ star = false ∧
      ((∃ n, lowAndHigh = [n] ∧ ValueOf r n start ∧ stop = start) ∨
        ∃ n m, lowAndHigh = [n, m] ∧ ValueOf r n start ∧ ValueOf r m stop) := by
  constructor
  · rintro (⟨h, -⟩ | ⟨n, hl, -, hstar, hv, hstop⟩ | ⟨n, m, hl, -, hstar, hv, hv'⟩)
    · exact absurd h hs
    · exact ⟨hstar, .inl ⟨n, hl, hv, hstop⟩⟩
    · exact ⟨hstar, .inr ⟨n, m, hl, hv, hv'⟩⟩
  · rintro ⟨hstar, ⟨n, rfl, hv, hstop⟩ | ⟨n, m, rfl, hv, hv'⟩⟩
    · exact .inr (.inl ⟨n, rfl, hs, hstar, hv, hstop⟩)
    · exact .inr (.inr ⟨n, m, rfl, hs, hstar, hv, hv'⟩)

theorem rangeBounds_eq_ok {expr : List UInt8} {r : Bounds} {lowAndHigh : List (List UInt8)}
    {start stop : Nat} {extra : BitVec 64} :
    rangeBounds expr r lowAndHigh = .ok (start, stop, extra) ↔
      ∃ star, BoundsForm r lowAndHigh start stop star ∧ extra = if star then starBit else 0 := by
  unfold rangeBounds
  by_cases hs : lowAndHigh.headD [] = starText ∨ lowAndHigh.headD [] = questionText
  case pos =>
    simp only [if_pos hs, boundsForm_star hs, Except.ok.injEq, Prod.mk.injEq]
    constructor
    · rintro ⟨rfl, rfl, rfl⟩
      exact ⟨true, ⟨rfl, rfl, rfl⟩, rfl⟩
    · rintro ⟨_, ⟨rfl, rfl, rfl⟩, rfl⟩
      exact ⟨rfl, rfl, rfl⟩
  case neg =>
    simp only [if_neg hs, boundsForm_number hs]
    rcases lowAndHigh with _ | ⟨n, _ | ⟨m, _ | ⟨k, rest⟩⟩⟩
    case nil =>
      cases h : parseIntOrName [] r.names <;> simp [h]
    case cons.nil =>
      cases h : parseIntOrName n r.names <;> simp [h, ← parseIntOrName_eq_ok]
      grind
    case cons.cons.nil =>
      cases h : parseIntOrName n r.names <;> cases h' : parseIntOrName m r.names <;>
        simp [h, h', ← parseIntOrName_eq_ok]
      grind
    case cons.cons.cons =>
      cases h : parseIntOrName n r.names <;> simp [h]

theorem rangeStep_eq_ok {expr : List UInt8} {r : Bounds} {single : Bool} {rng : List UInt8}
    {stepPart : List (List UInt8)} {stop step stop' : Nat} {extra extra' : BitVec 64} :
    rangeStep expr r single (rng :: stepPart) stop extra = .ok (step, stop', extra') ↔
      StepForm stepPart step ∧ stop' = (if stepPart ≠ [] ∧ single = true then r.max else stop) ∧
        extra' = if 1 < step then 0 else extra := by
  rcases stepPart with _ | ⟨s, _ | ⟨t, rest⟩⟩
  case nil =>
    simp only [rangeStep, List.length_singleton, Except.ok.injEq, Prod.mk.injEq, StepForm,
      true_and, reduceCtorEq, false_and, exists_false, or_false]
    constructor <;> rintro ⟨rfl, rfl, rfl⟩ <;> simp
  case cons.nil =>
    cases h : mustParseInt s <;> simp [rangeStep, StepForm, h, ← mustParseInt_eq_ok]
    rintro rfl
    exact and_congr eq_comm eq_comm
  case cons.cons =>
    simp [rangeStep, StepForm]

theorem checkRange_eq_ok {expr : List UInt8} {r : Bounds} {start stop step : Nat}
    {extra bits : BitVec 64} :
    checkRange expr r start stop step extra = .ok bits ↔
      (r.min ≤ start ∧ start ≤ stop ∧ stop ≤ r.max ∧ 1 ≤ step) ∧
        bits = getBits start stop step ||| extra := by
  unfold checkRange
  split_ifs with hmin hmax hle hstep
  · simp; omega
  · simp; omega
  · simp; omega
  · simp; omega
  · simp only [Except.ok.injEq]
    exact ⟨fun h => ⟨by omega, h.symm⟩, fun h => h.2.symm⟩

/-! ### What `getRange` accepts -/

/-- `getRange` succeeds when its three stages do, one after the other. -/
theorem getRange_eq_ok_stages {expr : List UInt8} {r : Bounds} {bits : BitVec 64}
    {rng : List UInt8} {stepPart : List (List UInt8)}
    (hsplit : expr.splitOn slash = rng :: stepPart) :
    getRange expr r = .ok bits ↔ ∃ start stop extra step stop' extra',
      rangeBounds expr r (rng.splitOn hyphen) = .ok (start, stop, extra) ∧
      rangeStep expr r ((rng.splitOn hyphen).length == 1) (rng :: stepPart) stop extra =
        .ok (step, stop', extra') ∧
      checkRange expr r start stop' step extra' = .ok bits := by
  unfold getRange
  simp only [hsplit, List.headD_cons]
  cases hb : rangeBounds expr r (rng.splitOn hyphen) with
  | error e => simp
  | ok t =>
    obtain ⟨start, stop, extra⟩ := t
    cases hs : rangeStep expr r ((rng.splitOn hyphen).length == 1) (rng :: stepPart) stop extra with
    | error e => simp [hs]
    | ok u =>
      obtain ⟨step, stop', extra'⟩ := u
      simp [hs]

theorem RangeSpec.extra_eq (f : RangeSpec) :
    f.extra = if 1 < f.step then 0 else if f.star then starBit else 0 := by
  unfold RangeSpec.extra
  by_cases h : 1 < f.step
  · have : ¬f.step ≤ 1 := by omega
    simp [h, this]
  · have : f.step ≤ 1 := by omega
    cases f.star <;> simp [h, this]

/-- `getRange` accepts exactly the ranges of the grammar that lie within the bounds with a
positive step, and returns their bits. -/
theorem getRange_eq_ok {expr : List UInt8} {r : Bounds} {bits : BitVec 64} :
    getRange expr r = .ok bits ↔ ∃ f, RangeForm r expr f ∧ f.Valid r ∧ bits = f.bits := by
  obtain ⟨rng, stepPart, hsplit⟩ := List.exists_cons_of_ne_nil (List.splitOn_ne_nil slash expr)
  rw [getRange_eq_ok_stages hsplit]
  simp only [rangeBounds_eq_ok, rangeStep_eq_ok, checkRange_eq_ok, beq_iff_eq]
  constructor
  · rintro ⟨start, stop, extra, step, stop', extra', ⟨star, hb, rfl⟩, ⟨hst, rfl, rfl⟩, hv, rfl⟩
    refine ⟨⟨start, if stepPart ≠ [] ∧ (rng.splitOn hyphen).length = 1 then r.max else stop,
      step, star⟩, ⟨rng, stepPart, stop, hsplit, hst, hb, rfl⟩, hv, ?_⟩
    rw [RangeSpec.bits, RangeSpec.extra_eq]
  · rintro ⟨⟨start, stop', step, star⟩, ⟨rng', stepPart', stop, hs', hst, hb, hstop⟩, hv, rfl⟩
    rw [hsplit, List.cons.injEq] at hs'
    obtain ⟨rfl, rfl⟩ := hs'
    refine ⟨start, stop, _, step, stop', _, ⟨star, hb, rfl⟩, ⟨hst, hstop, rfl⟩, hv, ?_⟩
    rw [RangeSpec.bits, RangeSpec.extra_eq]

theorem ValueOf.unique {r : Bounds} {text : List UInt8} {a b : Nat} (ha : ValueOf r text a)
    (hb : ValueOf r text b) : a = b := by
  rw [← parseIntOrName_eq_ok] at ha hb
  rw [ha, Except.ok.injEq] at hb
  exact hb

theorem StepForm.unique {stepPart : List (List UInt8)} {a b : Nat} (ha : StepForm stepPart a)
    (hb : StepForm stepPart b) : a = b := by
  rcases ha with ⟨rfl, rfl⟩ | ⟨s, rfl, ha⟩ <;> rcases hb with ⟨h, rfl⟩ | ⟨s', h, hb⟩
  · rfl
  · cases h
  · cases h
  · rw [List.cons.injEq] at h
    rw [h.1, hb, Option.some.injEq] at ha
    exact Int.ofNat.inj ha.symm

theorem BoundsForm.unique {r : Bounds} {lowAndHigh : List (List UInt8)} {s t s' t' : Nat}
    {b b' : Bool} (h : BoundsForm r lowAndHigh s t b) (h' : BoundsForm r lowAndHigh s' t' b') :
    s = s' ∧ t = t' ∧ b = b' := by
  by_cases hs : lowAndHigh.headD [] = starText ∨ lowAndHigh.headD [] = questionText
  · obtain ⟨rfl, rfl, rfl⟩ := (boundsForm_star hs).mp h
    obtain ⟨rfl, rfl, rfl⟩ := (boundsForm_star hs).mp h'
    exact ⟨rfl, rfl, rfl⟩
  · obtain ⟨rfl, ⟨n, rfl, hv, rfl⟩ | ⟨n, m, rfl, hv, hw⟩⟩ := (boundsForm_number hs).mp h <;>
      obtain ⟨rfl, ⟨n', hl, hv', rfl⟩ | ⟨n', m', hl, hv', hw'⟩⟩ := (boundsForm_number hs).mp h' <;>
      simp only [List.cons.injEq, reduceCtorEq, and_false, and_true] at hl
    case inl.inl =>
      subst hl
      exact ⟨hv.unique hv', hv.unique hv', rfl⟩
    case inr.inr =>
      obtain ⟨rfl, rfl⟩ := hl
      exact ⟨hv.unique hv', hw.unique hw', rfl⟩

theorem RangeForm.unique {r : Bounds} {expr : List UInt8} {f g : RangeSpec}
    (hf : RangeForm r expr f) (hg : RangeForm r expr g) : f = g := by
  obtain ⟨rng, stepPart, stop, hs, hst, hb, hstop⟩ := hf
  obtain ⟨rng', stepPart', stop', hs', hst', hb', hstop'⟩ := hg
  rw [hs, List.cons.injEq] at hs'
  obtain ⟨rfl, rfl⟩ := hs'
  obtain ⟨h1, rfl, h3⟩ := hb.unique hb'
  have h2 := hst.unique hst'
  cases f
  cases g
  simp only [RangeSpec.mk.injEq] at *
  exact ⟨h1, hstop.trans hstop'.symm, h2, h3⟩

/-! ### The bits of a field -/

/-- The bits a valid range sets: the values it runs through, and the star bit for a star with a
step of one. -/
theorem RangeSpec.getLsbD_bits {f : RangeSpec} {r : Bounds} (hf : f.Valid r)
    (hmax : r.max ≤ 62) (v : Nat) :
    f.bits.getLsbD v = true ↔ (v < 63 ∧ f.Hits v) ∨ (v = 63 ∧ f.star = true ∧ f.step ≤ 1) := by
  obtain ⟨hmin, hle, hstop, hstep⟩ := hf
  rw [RangeSpec.bits, BitVec.getLsbD_or, getLsbD_getBits v hstep (by omega), RangeSpec.extra,
    Bool.or_eq_true, decide_eq_true_eq]
  by_cases hs : f.star = true ∧ f.step ≤ 1
  · rw [if_pos hs, getLsbD_starBit, decide_eq_true_eq]
    unfold RangeSpec.Hits
    constructor
    · rintro (h | rfl)
      · exact .inl ⟨by omega, h⟩
      · exact .inr ⟨rfl, hs⟩
    · rintro (⟨-, h⟩ | ⟨rfl, -⟩)
      · exact .inl h
      · exact .inr rfl
  · rw [if_neg hs]
    simp only [BitVec.ofNat_eq_ofNat, BitVec.getLsbD_zero, Bool.false_eq_true, or_false]
    unfold RangeSpec.Hits
    constructor
    · intro h
      exact .inl ⟨by omega, h⟩
    · rintro (⟨-, h⟩ | ⟨-, h⟩)
      · exact h
      · exact absurd h hs

theorem fieldsLoop_ok_iff (r : Bounds) (ranges : List (List UInt8)) (acc : BitVec 64) :
    (∃ bits, fieldsLoop r ranges acc = .ok bits) ↔ ∀ expr ∈ ranges, ∃ b, getRange expr r = .ok b := by
  induction ranges generalizing acc with
  | nil => simp [fieldsLoop]
  | cons expr rest ih =>
    cases h : getRange expr r with
    | error e => simp [fieldsLoop, h]
    | ok b => simp [fieldsLoop, h, ih]

/-- The loop of `getField` sets the bits of its ranges on top of `acc`. -/
theorem getLsbD_fieldsLoop {r : Bounds} {v : Nat} {ranges : List (List UInt8)}
    {acc bits : BitVec 64} (h : fieldsLoop r ranges acc = .ok bits) :
    bits.getLsbD v = true ↔
      acc.getLsbD v = true ∨ ∃ expr ∈ ranges, ∃ b, getRange expr r = .ok b ∧ b.getLsbD v = true := by
  induction ranges generalizing acc with
  | nil =>
    rw [fieldsLoop, Except.ok.injEq] at h
    simp [h]
  | cons expr rest ih =>
    cases hr : getRange expr r with
    | error e => simp [fieldsLoop, hr] at h
    | ok b =>
      rw [fieldsLoop, hr] at h
      rw [ih h, BitVec.getLsbD_or, Bool.or_eq_true]
      simp [hr, or_assoc]

theorem getField_range {field : List UInt8} {r : Bounds} {bits : BitVec 64}
    (h : getField field r = .ok bits) {expr : List UInt8} (he : expr ∈ fieldsComma field)
    {f : RangeSpec} (hf : RangeForm r expr f) : f.Valid r ∧ getRange expr r = .ok f.bits := by
  obtain ⟨b, hb⟩ := (fieldsLoop_ok_iff r _ 0).mp ⟨bits, h⟩ expr he
  obtain ⟨g, hg, hv, rfl⟩ := getRange_eq_ok.mp hb
  rw [hf.unique hg]
  exact ⟨hv, hb⟩

/-- The bits `getField` sets: each is set by one of the field's ranges. -/
theorem getField_getLsbD {field : List UInt8} {r : Bounds} {bits : BitVec 64}
    (h : getField field r = .ok bits) (hmax : r.max ≤ 62) (v : Nat) :
    bits.getLsbD v = true ↔ ∃ expr ∈ fieldsComma field, ∃ f, RangeForm r expr f ∧
      ((v < 63 ∧ f.Hits v) ∨ (v = 63 ∧ f.star = true ∧ f.step ≤ 1)) := by
  rw [getLsbD_fieldsLoop h]
  simp only [BitVec.ofNat_eq_ofNat, BitVec.getLsbD_zero, Bool.false_eq_true, false_or]
  constructor
  · rintro ⟨expr, he, b, hb, hbit⟩
    obtain ⟨f, hf, hv, rfl⟩ := getRange_eq_ok.mp hb
    exact ⟨expr, he, f, hf, (RangeSpec.getLsbD_bits hv hmax v).mp hbit⟩
  · rintro ⟨expr, he, f, hf, hbit⟩
    obtain ⟨hv, hb⟩ := getField_range h he hf
    exact ⟨expr, he, f.bits, hb, (RangeSpec.getLsbD_bits hv hmax v).mpr hbit⟩

/-- The bits of a field lie within its bounds, but for the star bit. -/
def InBounds (r : Bounds) (bits : BitVec 64) : Prop :=
  ∀ v, bits.getLsbD v = true → v = 63 ∨ r.min ≤ v ∧ v ≤ r.max

theorem getField_inBounds {field : List UInt8} {r : Bounds} {bits : BitVec 64}
    (h : getField field r = .ok bits) (hmax : r.max ≤ 62) : InBounds r bits := by
  intro v hbit
  obtain ⟨expr, he, f, hf, ⟨-, hhit⟩ | ⟨rfl, -⟩⟩ := (getField_getLsbD h hmax v).mp hbit
  · obtain ⟨⟨hmin, -, hstop, -⟩, -⟩ := getField_range h he hf
    obtain ⟨hlo, hhi, -⟩ := hhit
    exact .inr ⟨by omega, by omega⟩
  · exact .inl rfl

theorem getField_spec (field : List UInt8) (r : Bounds) (hmax : r.max ≤ 62) :
    ((∃ bits, getField field r = .ok bits) ↔
      ∀ expr ∈ fieldsComma field, ∃ f, RangeForm r expr f ∧ f.Valid r) ∧
    ∀ bits, getField field r = .ok bits →
      (∀ v < 63, bits.getLsbD v = true ↔
        ∃ expr ∈ fieldsComma field, ∃ f, RangeForm r expr f ∧ f.Hits v) ∧
      (bits.getLsbD 63 = true ↔
        ∃ expr ∈ fieldsComma field, ∃ f, RangeForm r expr f ∧ f.star = true ∧ f.step ≤ 1) ∧
      ∀ v, bits.getLsbD v = true → v = 63 ∨ r.min ≤ v ∧ v ≤ r.max := by
  refine ⟨?_, fun bits h => ⟨?_, ?_, ?_⟩⟩
  case refine_1 =>
    rw [getField, fieldsLoop_ok_iff]
    refine forall₂_congr fun expr _ => ⟨?_, ?_⟩
    · rintro ⟨b, hb⟩
      obtain ⟨f, hf, hv, -⟩ := getRange_eq_ok.mp hb
      exact ⟨f, hf, hv⟩
    · rintro ⟨f, hf, hv⟩
      exact ⟨f.bits, getRange_eq_ok.mpr ⟨f, hf, hv, rfl⟩⟩
  case refine_2 =>
    intro v hv
    rw [getField_getLsbD h hmax]
    constructor
    · rintro ⟨expr, he, f, hf, ⟨-, hhit⟩ | ⟨rfl, -⟩⟩
      · exact ⟨expr, he, f, hf, hhit⟩
      · omega
    · rintro ⟨expr, he, f, hf, hhit⟩
      exact ⟨expr, he, f, hf, .inl ⟨hv, hhit⟩⟩
  case refine_3 =>
    rw [getField_getLsbD h hmax]
    constructor
    · rintro ⟨expr, he, f, hf, ⟨h63, -⟩ | ⟨-, hstar⟩⟩
      · omega
      · exact ⟨expr, he, f, hf, hstar⟩
    · rintro ⟨expr, he, f, hf, hstar⟩
      exact ⟨expr, he, f, hf, .inr ⟨rfl, hstar⟩⟩
  case refine_4 => exact getField_inBounds h hmax

theorem getField_spec_seconds : seconds.max ≤ 62 ∧
    ((∃ bits, getField (encode "0-30/15,*".toList) seconds = .ok bits) ↔
      ∀ expr ∈ fieldsComma (encode "0-30/15,*".toList), ∃ f, RangeForm seconds expr f ∧
        f.Valid seconds) :=
  ⟨by decide, (getField_spec _ _ (by decide)).1⟩

example : getField (encode "1,5-7/2,3".toList) ⟨1, 7, none⟩ = .ok 0xaa#64 := by decide

/-- A star followed by a hyphen is read as the star alone, whatever follows the hyphen. -/
theorem star_hyphen_is_star :
    getField (encode "*-5".toList) seconds = .ok (all seconds) ∧
      getField (encode "*-x".toList) seconds = .ok (all seconds) := by
  decide

end Gkit.Schedule
