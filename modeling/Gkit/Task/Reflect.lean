import Mathlib
import Gkit.Library.Strconv
import Gkit.Library.GoSlice

/-!
The argument codec of `distributed/task/reflect.go`: `ReflectValue` turns the type name of a
task argument and its dynamic value into a value of that type. A Go string is its bytes. What
the float and base64 branches read of the library (`json.Number.Float64`, the `float32`
rounding of `SetFloat`, `base64.StdEncoding.DecodeString`) is a parameter; `json.Number.Int64`
is `strconv.ParseInt(s, 10, 64)`, which reads as `strconv.Atoi` does on a 64-bit target.
-/

namespace Gkit.Task

open Strconv

/-- The element types of `typeOfMap`. -/
inductive BaseType
  | bool
  | int | int8 | int16 | int32 | int64
  | uint | uint8 | uint16 | uint32 | uint64
  | float32 | float64
  | string
deriving DecidableEq, Repr

namespace BaseType

/-- `reflect.Type.String()`. -/
def name : BaseType → String
  | bool => "bool"
  | int => "int"
  | int8 => "int8"
  | int16 => "int16"
  | int32 => "int32"
  | int64 => "int64"
  | uint => "uint"
  | uint8 => "uint8"
  | uint16 => "uint16"
  | uint32 => "uint32"
  | uint64 => "uint64"
  | float32 => "float32"
  | float64 => "float64"
  | string => "string"

/-- The width of an integer type; `int` and `uint` are 64 bits wide on a 64-bit target. -/
def width : BaseType → Nat
  | int | int64 | uint | uint64 => 64
  | int32 | uint32 => 32
  | int16 | uint16 => 16
  | int8 | uint8 => 8
  | _ => 0

end BaseType

def baseTypes : List BaseType :=
  [.bool, .int, .int8, .int16, .int32, .int64, .uint, .uint8, .uint16, .uint32, .uint64,
    .float32, .float64, .string]

/-- The `reflect.Type`s of `typeOfMap`: a base type, or a slice of one. -/
inductive GoType
  | base (t : BaseType)
  | slice (t : BaseType)
deriving DecidableEq, Repr

def GoType.name : GoType → String
  | .base t => t.name
  | .slice t => "[]" ++ t.name

/-- `typeOfMap`: each base type and the slice of each, under its name. -/
def typeOfMap (valueType : String) : Option GoType :=
  (baseTypes.map GoType.base ++ baseTypes.map GoType.slice).find? (·.name = valueType)

/-- What an `interface{}` argument holds: what `json.Decoder` with `UseNumber` produces
(`nil`, a `bool`, a `json.Number`, a `string`, a `[]interface{}`), a number of a Go type `t`
that a caller passes, and the `[]byte` a base64 text decodes to. A `jsoniter.Number` reads as a
`json.Number`. -/
inductive Dynamic (F : Type) where
  | null
  | bool (b : Bool)
  | number (text : List UInt8)
  | string (s : List UInt8)
  | int (t : BaseType) (v : Int)
  | float (t : BaseType) (v : F)
  | array (xs : List (Dynamic F))
  | bytes (bs : List UInt8)

/-- The `reflect.Value`s `ReflectValue` returns, each with its type. -/
inductive Value (F : Type) where
  | bool (b : Bool)
  | int (t : BaseType) (v : Int)
  | uint (t : BaseType) (v : Nat)
  | float (t : BaseType) (v : F)
  | string (s : List UInt8)
  | slice (t : BaseType) (xs : List (Value F))

/-- The errors of `ReflectValue`. -/
inductive ReflectError (F : Type) where
  /-- `NewErrNonsupportType(valueType)`. -/
  | nonsupportType (valueType : String)
  /-- `typeConversionError`: `"%v is not %v"`. -/
  | conversion (value : Dynamic F) (typeName : String)
  /-- The error of `json.Number.Int64` on the text. -/
  | parseInt (text : List UInt8)
  /-- The error of `json.Number.Float64`, or of the base64 decoding. -/
  | library (err : String)

/-- What the float and base64 branches read of the library: `json.Number.Float64`, the
`float32` a `float64` rounds to in `SetFloat`, and `base64.StdEncoding.DecodeString`. -/
structure Library (F : Type) where
  numberFloat64 : List UInt8 → Except String F
  toFloat32 : F → F
  decodeBase64 : List UInt8 → Except String (List UInt8)

variable {F : Type}

/-! ### The element conversions -/

def getBoolValue (theType : BaseType) : Dynamic F → Except (ReflectError F) Bool
  | .bool b => .ok b
  | value => .error (.conversion value theType.name)

def getIntValue (theType : BaseType) : Dynamic F → Except (ReflectError F) Int
  | .number text =>
    match Atoi text with
    | some n => .ok n
    | none => .error (.parseInt text)
  | .int t v =>
    if t ∈ [.int64, .int32, .int16, .int8, .int] then .ok v
    else .error (.conversion (.int t v) theType.name)
  | value => .error (.conversion value theType.name)

def getUintValue (theType : BaseType) : Dynamic F → Except (ReflectError F) Nat
  | .number text =>
    match Atoi text with
    -- `uint64(intVal)`: the `int64` read in two's complement
    | some n => .ok (n % 2 ^ 64).toNat
    | none => .error (.parseInt text)
  | .int t v =>
    if t ∈ [.uint64, .uint32, .uint16, .uint8, .uint] then .ok v.toNat
    else .error (.conversion (.int t v) theType.name)
  | value => .error (.conversion value theType.name)

def getFloatValue (lib : Library F) (theType : BaseType) : Dynamic F → Except (ReflectError F) F
  | .number text =>
    match lib.numberFloat64 text with
    | .ok x => .ok x
    | .error err => .error (.library err)
  | .float t v =>
    if t = .float64 ∨ t = .float32 then .ok v else .error (.conversion (.float t v) theType.name)
  | value => .error (.conversion value theType.name)

def getStringValue (theType : BaseType) : Dynamic F → Except (ReflectError F) (List UInt8)
  | .string s => .ok s
  | value => .error (.conversion value theType.name)

/-- `reflect.Value.SetInt` on a value of type `t`: the `int64` cut to `t`'s width. -/
def setInt (t : BaseType) (x : Int) : Int := x.bmod (2 ^ t.width)

/-- `reflect.Value.SetUint` on a value of type `t`: the `uint64` cut to `t`'s width. -/
def setUint (t : BaseType) (x : Nat) : Nat := x % 2 ^ t.width

/-- `reflect.Value.SetFloat`: a `float32` rounds the `float64`. -/
def setFloat (lib : Library F) (t : BaseType) (x : F) : F :=
  if t = .float32 then lib.toFloat32 x else x

/-- One element, or one base value, converted as the branch for `t` does. The branches test
`theType.String()`: `"bool"`, then the prefixes `"int"`, `"uint"` and `"float"`, then
`"string"`. -/
def convert (lib : Library F) (t : BaseType) (value : Dynamic F) :
    Option (Except (ReflectError F) (Value F)) :=
  if t.name = "bool" then some ((getBoolValue t value).map .bool)
  else if t.name.startsWith "int" then some ((getIntValue t value).map fun v => .int t (setInt t v))
  else if t.name.startsWith "uint" then
    some ((getUintValue t value).map fun v => .uint t (setUint t v))
  else if t.name.startsWith "float" then
    some ((getFloatValue lib t value).map fun v => .float t (setFloat lib t v))
  else if t.name = "string" then some ((getStringValue t value).map .string)
  else none

/-! ### `ReflectValue` -/

def reflectValue (lib : Library F) (valueType : String) (value : Dynamic F) :
    Except (ReflectError F) (Value F) :=
  match typeOfMap valueType with
  | some (.base t) =>
    match convert lib t value with
    | some r => r
    | none => .error (.nonsupportType valueType)
  -- a slice type passes none of the tests on its name
  | _ => .error (.nonsupportType valueType)

/-- The elements of a value whose kind is `reflect.Slice` or `reflect.Array`. -/
def elements : Dynamic F → Option (List (Dynamic F))
  | .array xs => some xs
  | .bytes bs => some (bs.map fun b => .int .uint8 b.toNat)
  | _ => none

/-- `reflectValues` past its `NULL` test: a base64 text decodes first, for the unsigned
element types, then each element converts. -/
def reflectElements (lib : Library F) (valueType : String) (t : BaseType) (value : Dynamic F) :
    Except (ReflectError F) (Value F) :=
  let decoded : Except (ReflectError F) (Dynamic F) :=
    match value with
    | .string encoded =>
      if ("[]" ++ t.name).startsWith "[]uint" then
        match lib.decodeBase64 encoded with
        | .ok output => .ok (.bytes output)
        | .error err => .error (.library err)
      else .ok value
    | _ => .ok value
  match decoded with
  | .error e => .error e
  | .ok value =>
    match elements value with
    | none => .error (.conversion value ("[]" ++ t.name))
    | some xs =>
      match xs.mapM fun x => (convert lib t x).getD (.error (.nonsupportType valueType)) with
      | .ok vs => .ok (.slice t vs)
      | .error e => .error e

def reflectValues (lib : Library F) (valueType : String) (value : Dynamic F) :
    Except (ReflectError F) (Value F) :=
  match typeOfMap valueType with
  | some (.slice t) =>
    match value with
    -- For NULL we return an empty slice
    | .null => .ok (.slice t [])
    | value => reflectElements lib valueType t value
  | _ => .error (.nonsupportType valueType)

def ReflectValue (lib : Library F) (valueType : String) (value : Dynamic F) :
    Except (ReflectError F) (Value F) :=
  if valueType.startsWith "[]" then reflectValues lib valueType value
  else reflectValue lib valueType value

/-! ### The integer types -/

namespace BaseType

def isSigned : BaseType → Bool
  | int | int8 | int16 | int32 | int64 => true
  | _ => false

def isUnsigned : BaseType → Bool
  | uint | uint8 | uint16 | uint32 | uint64 => true
  | _ => false

/-- The values of an integer type. -/
def InRange (t : BaseType) (x : Int) : Prop :=
  if t.isSigned then -2 ^ (t.width - 1) ≤ x ∧ x < 2 ^ (t.width - 1) else 0 ≤ x ∧ x < 2 ^ t.width

theorem width_of_isSigned {t : BaseType} (h : t.isSigned) : 8 ≤ t.width ∧ t.width ≤ 64 := by
  cases t <;> simp_all [isSigned, width]

theorem width_of_isUnsigned {t : BaseType} (h : t.isUnsigned) : 8 ≤ t.width ∧ t.width ≤ 64 := by
  cases t <;> simp_all [isUnsigned, width]

end BaseType

/-- The integer a typed value holds. -/
def Value.asInt : Value F → Option Int
  | .int _ v => some v
  | .uint _ v => some (v : Int)
  | _ => none

variable (lib : Library F)

theorem typeOfMap_base (t : BaseType) : typeOfMap t.name = some (.base t) := by
  cases t <;> decide +kernel

theorem not_startsWith_slice (t : BaseType) : t.name.startsWith "[]" = false := by
  cases t <;> decide +kernel

theorem ReflectValue_base (t : BaseType) (value : Dynamic F) :
    ReflectValue lib t.name value = (convert lib t value).getD (.error (.nonsupportType t.name)) := by
  rw [ReflectValue, not_startsWith_slice, if_neg Bool.false_ne_true, reflectValue, typeOfMap_base]
  dsimp only
  cases convert lib t value <;> rfl

theorem convert_of_isSigned {t : BaseType} (h : t.isSigned) (value : Dynamic F) :
    convert lib t value = some ((getIntValue t value).map fun v => .int t (setInt t v)) := by
  cases t <;> simp_all [convert, BaseType.name, BaseType.isSigned]

theorem convert_of_isUnsigned {t : BaseType} (h : t.isUnsigned) (value : Dynamic F) :
    convert lib t value = some ((getUintValue t value).map fun v => .uint t (setUint t v)) := by
  cases t <;> simp_all [convert, BaseType.name, BaseType.isUnsigned]

/-- Half of `2 ^ w`, rounded down and up, is `2 ^ (w - 1)`: the bounds of `Int.bmod`. -/
theorem two_pow_half {w : Nat} (hw : 1 ≤ w) :
    ((2 ^ w : Nat) : Int) / 2 = 2 ^ (w - 1) ∧ (((2 ^ w : Nat) : Int) + 1) / 2 = 2 ^ (w - 1) := by
  rw [show w = w - 1 + 1 by omega, pow_succ]
  push_cast
  omega

theorem BaseType.inRange_of_isSigned {t : BaseType} (h : t.isSigned) {x : Int} :
    t.InRange x ↔ -(((2 ^ t.width : Nat) : Int) / 2) ≤ x ∧ x < (((2 ^ t.width : Nat) : Int) + 1) / 2 := by
  obtain ⟨hlo, -⟩ := BaseType.width_of_isSigned h
  obtain ⟨h1, h2⟩ := two_pow_half (by omega : 1 ≤ t.width)
  rw [BaseType.InRange, if_pos h, h1, h2]

theorem setInt_spec {t : BaseType} (h : t.isSigned) (x : Int) :
    t.InRange (setInt t x) ∧ setInt t x % 2 ^ t.width = x % 2 ^ t.width := by
  refine ⟨(BaseType.inRange_of_isSigned h).mpr
    ⟨Int.le_bmod (Nat.two_pow_pos _), Int.bmod_lt (Nat.two_pow_pos _)⟩, ?_⟩
  have := Int.bmod_emod (x := x) (m := 2 ^ t.width)
  push_cast at this
  exact this

example : setInt .int8 300 = 44 := by decide

theorem setInt_of_inRange {t : BaseType} (h : t.isSigned) {x : Int} (hx : t.InRange x) :
    setInt t x = x := by
  obtain ⟨h1, h2⟩ := (BaseType.inRange_of_isSigned h).mp hx
  exact Int.bmod_eq_of_le h1 h2

theorem setUint_spec {t : BaseType} (h : t.isUnsigned) (n : Int) :
    t.InRange (setUint t (n % 2 ^ 64).toNat) ∧
      (setUint t (n % 2 ^ 64).toNat : Int) % 2 ^ t.width = n % 2 ^ t.width := by
  obtain ⟨-, hhi⟩ := BaseType.width_of_isUnsigned h
  have hsigned : t.isSigned = false := by cases t <;> simp_all [BaseType.isSigned, BaseType.isUnsigned]
  have hcast : ((setUint t (n % 2 ^ 64).toNat : Nat) : Int) = n % 2 ^ 64 % 2 ^ t.width := by
    rw [setUint, Int.natCast_mod, Int.toNat_of_nonneg (Int.emod_nonneg _ (by positivity))]
    push_cast
    rfl
  have hdvd : (2 : Int) ^ t.width ∣ 2 ^ 64 := pow_dvd_pow 2 hhi
  refine ⟨?_, ?_⟩
  · rw [BaseType.InRange, if_neg (by simp [hsigned]), hcast]
    exact ⟨Int.emod_nonneg _ (by positivity), Int.emod_lt_of_pos _ (by positivity)⟩
  · rw [hcast, Int.emod_emod_of_dvd _ hdvd, Int.emod_emod_of_dvd _ (dvd_refl _)]

/-! ### The round trip through JSON

`json.Marshal` writes an integer in decimal, `strconv.Itoa` for a signed type and the digits
of the value for an unsigned one, and a `[]uint8` as its base64 text. -/

theorem BaseType.int64_of_inRange {t : BaseType} (h : t.isSigned) {x : Int} (hx : t.InRange x) :
    -2 ^ 63 ≤ x ∧ x < 2 ^ 63 := by
  obtain ⟨hlo, hhi⟩ := BaseType.width_of_isSigned h
  rw [BaseType.InRange, if_pos h] at hx
  have hpow : (2 : Int) ^ (t.width - 1) ≤ 2 ^ 63 := pow_le_pow_right₀ (by norm_num) (by omega)
  omega

theorem itoa_natCast (x : Nat) : Itoa (x : Int) = formatNat x := by
  simp [Itoa]

theorem convert_itoa {t : BaseType} (h : t.isSigned) {x : Int} (hx : t.InRange x) :
    convert lib t (.number (Itoa x)) = some (.ok (.int t x)) := by
  rw [convert_of_isSigned lib h]
  simp only [getIntValue, atoi_itoa (BaseType.int64_of_inRange h hx), Except.map,
    setInt_of_inRange h hx]

/-- An unsigned value written in decimal converts back to itself below `2 ^ 63`, and is
rejected by `json.Number.Int64` from there on: the upper half of `uint64` does not survive. -/
theorem convert_formatNat {t : BaseType} (h : t.isUnsigned) {x : Nat} (hx : x < 2 ^ t.width) :
    convert lib t (.number (formatNat x)) =
      some (if x < 2 ^ 63 then .ok (.uint t x) else .error (.parseInt (formatNat x))) := by
  have hparse : parseInt (formatNat x) = some (x : Int) := by
    rw [← itoa_natCast, parseInt_itoa]
  rw [convert_of_isUnsigned lib h]
  by_cases hlt : x < 2 ^ 63
  case pos =>
    have hatoi : Atoi (formatNat x) = some (x : Int) := by
      simp only [Atoi, hparse]
      rw [if_pos ⟨by omega, by exact_mod_cast hlt⟩]
    have hmod : ((x : Int) % 2 ^ 64).toNat = x := by
      rw [Int.emod_eq_of_lt (by omega) (by omega)]
      rfl
    simp only [getUintValue, hatoi, hmod, Except.map, if_pos hlt, setUint, Nat.mod_eq_of_lt hx]
  case neg =>
    have hatoi : Atoi (formatNat x) = none := by
      simp only [Atoi, hparse]
      rw [if_neg (by omega)]
    simp only [getUintValue, hatoi, Except.map, if_neg hlt]

theorem reflectValue_itoa {t : BaseType} (h : t.isSigned) {x : Int} (hx : t.InRange x) :
    ReflectValue lib t.name (.number (Itoa x)) = .ok (.int t x) := by
  rw [ReflectValue_base, convert_itoa lib h hx]
  rfl

theorem reflectValue_formatNat {t : BaseType} (h : t.isUnsigned) {x : Nat} (hx : x < 2 ^ t.width) :
    ReflectValue lib t.name (.number (formatNat x)) =
      if x < 2 ^ 63 then .ok (.uint t x) else .error (.parseInt (formatNat x)) := by
  rw [ReflectValue_base, convert_formatNat lib h hx]
  rfl

theorem typeOfMap_slice (t : BaseType) : typeOfMap ("[]" ++ t.name) = some (.slice t) := by
  cases t <;> decide +kernel

theorem startsWith_slice (t : BaseType) : ("[]" ++ t.name).startsWith "[]" = true := by
  cases t <;> decide +kernel

/-- A `[]interface\x7b\x7d` converts element by element, with the slice type's name in the
error of an element type that no branch takes. -/
theorem ReflectValue_array (t : BaseType) (xs : List (Dynamic F)) :
    ReflectValue lib ("[]" ++ t.name) (.array xs) =
      (xs.mapM fun x => (convert lib t x).getD (.error (.nonsupportType ("[]" ++ t.name)))).map
        (.slice t) := by
  rw [ReflectValue, if_pos (startsWith_slice t), reflectValues, typeOfMap_slice]
  dsimp only [reflectElements, elements]
  cases xs.mapM fun x => (convert lib t x).getD (.error (.nonsupportType ("[]" ++ t.name))) <;> rfl

/-- A slice of a signed type reads back from the texts `Itoa` writes. -/
theorem reflectValue_array_itoa {t : BaseType} (h : t.isSigned) {xs : List Int}
    (hxs : ∀ x ∈ xs, t.InRange x) :
    ReflectValue lib ("[]" ++ t.name) (.array (xs.map fun x => .number (Itoa x))) =
      .ok (.slice t (xs.map (.int t))) := by
  rw [ReflectValue_array, GoSlice.mapM_map_eq_ok fun x hx => by rw [convert_itoa lib h (hxs x hx)]; rfl]
  rfl

/-- A slice of an unsigned type reads back from its decimal texts when every element is below
`2 ^ 63`. -/
theorem reflectValue_array_formatNat {t : BaseType} (h : t.isUnsigned) {xs : List Nat}
    (hxs : ∀ x ∈ xs, x < 2 ^ t.width ∧ x < 2 ^ 63) :
    ReflectValue lib ("[]" ++ t.name) (.array (xs.map fun x => .number (formatNat x))) =
      .ok (.slice t (xs.map (.uint t))) := by
  have hconv : ∀ x ∈ xs, (convert lib t (.number (formatNat x))).getD
      (.error (.nonsupportType ("[]" ++ t.name))) = .ok (.uint t x) := by
    intro x hx
    rw [convert_formatNat lib h (hxs x hx).1, if_pos (hxs x hx).2]
    rfl
  rw [ReflectValue_array, GoSlice.mapM_map_eq_ok hconv]
  rfl

theorem convert_byte (b : UInt8) :
    convert lib .uint8 (.int .uint8 b.toNat) = some (.ok (.uint .uint8 b.toNat)) := by
  have hmem : BaseType.uint8 ∈ [.uint64, .uint32, .uint16, .uint8, .uint] := by decide
  have hmod : b.toNat % 2 ^ BaseType.uint8.width = b.toNat := Nat.mod_eq_of_lt b.toNat_lt
  rw [convert_of_isUnsigned lib rfl]
  simp only [getUintValue, if_pos hmem, Int.toNat_natCast, Except.map, setUint, hmod]

/-- A `[]uint8` reads back from the base64 text it is marshalled as, whenever the text
decodes to the bytes. -/
theorem reflectValue_base64 {encoded bs : List UInt8} (hdec : lib.decodeBase64 encoded = .ok bs) :
    ReflectValue lib ("[]" ++ BaseType.uint8.name) (.string encoded) =
      .ok (.slice .uint8 (bs.map fun b => .uint .uint8 b.toNat)) := by
  have huint : ("[]" ++ BaseType.uint8.name).startsWith "[]uint" = true := by decide +kernel
  rw [ReflectValue, if_pos (startsWith_slice .uint8), reflectValues, typeOfMap_slice]
  dsimp only [reflectElements]
  rw [if_pos huint, hdec]
  dsimp only [elements]
  rw [GoSlice.mapM_map_eq_ok fun b _ => by rw [convert_byte lib b]; rfl]

theorem reflectValue_json_number {t : BaseType} (ht : t.isSigned ∨ t.isUnsigned)
    {s : List UInt8} {n : Int} (hs : parseInt s = some n) :
    (((∃ v, ReflectValue lib t.name (.number s) = .ok v) ↔ -2 ^ 63 ≤ n ∧ n < 2 ^ 63) ∧
      ∀ v, ReflectValue lib t.name (.number s) = .ok v →
        ∃ m, v.asInt = some m ∧ t.InRange m ∧ m % 2 ^ t.width = n % 2 ^ t.width) ∧
    (∀ (u : BaseType), u.isSigned → ∀ x, u.InRange x →
      ReflectValue lib u.name (.number (Itoa x)) = .ok (.int u x)) ∧
    (∀ (u : BaseType), u.isUnsigned → ∀ x : Nat, x < 2 ^ u.width →
      ReflectValue lib u.name (.number (formatNat x)) =
        if x < 2 ^ 63 then .ok (.uint u x) else .error (.parseInt (formatNat x))) ∧
    (∀ (u : BaseType), u.isSigned → ∀ xs : List Int, (∀ x ∈ xs, u.InRange x) →
      ReflectValue lib ("[]" ++ u.name) (.array (xs.map fun x => .number (Itoa x))) =
        .ok (.slice u (xs.map (.int u)))) ∧
    (∀ (u : BaseType), u.isUnsigned → ∀ xs : List Nat, (∀ x ∈ xs, x < 2 ^ u.width ∧ x < 2 ^ 63) →
      ReflectValue lib ("[]" ++ u.name) (.array (xs.map fun x => .number (formatNat x))) =
        .ok (.slice u (xs.map (.uint u)))) ∧
    ∀ encoded bs, lib.decodeBase64 encoded = .ok bs →
      ReflectValue lib ("[]" ++ BaseType.uint8.name) (.string encoded) =
        .ok (.slice .uint8 (bs.map fun b => .uint .uint8 b.toNat)) := by
  refine ⟨?_,fun _ h _ hx => reflectValue_itoa lib h hx,fun _ h _ hx => reflectValue_formatNat lib h hx,
    fun _ h _ hxs => reflectValue_array_itoa lib h hxs,fun _ h _ hxs => reflectValue_array_formatNat lib h hxs,
    fun _ _ hdec => reflectValue_base64 lib hdec⟩
  have hatoi : Atoi s = if -2 ^ 63 ≤ n ∧ n < 2 ^ 63 then some n else none := by
    simp only [Atoi, hs]
  rw [ReflectValue_base]
  rcases ht with hsig | huns
  case inl =>
    rw [convert_of_isSigned lib hsig]
    by_cases hr : -2 ^ 63 ≤ n ∧ n < 2 ^ 63
    · rw [if_pos hr] at hatoi
      simp only [getIntValue, hatoi, Option.getD_some, Except.map, Except.ok.injEq]
      refine ⟨⟨fun _ => hr, fun _ => ⟨_, rfl⟩⟩, ?_⟩
      rintro v rfl
      exact ⟨setInt t n, rfl, setInt_spec hsig n⟩
    · rw [if_neg hr] at hatoi
      simp only [getIntValue, hatoi, Except.map, Option.getD_some, reduceCtorEq, exists_false,
        false_iff, IsEmpty.forall_iff, implies_true, and_true]
      exact hr
  case inr =>
    rw [convert_of_isUnsigned lib huns]
    by_cases hr : -2 ^ 63 ≤ n ∧ n < 2 ^ 63
    · rw [if_pos hr] at hatoi
      simp only [getUintValue, hatoi, Option.getD_some, Except.map, Except.ok.injEq]
      refine ⟨⟨fun _ => hr, fun _ => ⟨_, rfl⟩⟩, ?_⟩
      rintro v rfl
      exact ⟨_, rfl, setUint_spec huns n⟩
    · rw [if_neg hr] at hatoi
      simp only [getUintValue, hatoi, Except.map, Option.getD_some, reduceCtorEq, exists_false,
        false_iff, IsEmpty.forall_iff, implies_true, and_true]
      exact hr

theorem reflectValue_json_number_int8 :
    ∃ v, ReflectValue (⟨fun _ => .ok (), id, fun _ => .ok []⟩ : Library Unit) BaseType.int8.name
        (.number [51, 48, 48]) = .ok v ∧
      ∃ m, v.asInt = some m ∧ BaseType.int8.InRange m ∧
        m % 2 ^ BaseType.int8.width = 300 % 2 ^ BaseType.int8.width := by
  have h := reflectValue_json_number (⟨fun _ => .ok (), id, fun _ => .ok []⟩ : Library Unit)
    (t := .int8) (Or.inl rfl) (s := [51, 48, 48]) (n := 300) (by decide)
  obtain ⟨v, hv⟩ := h.1.1.mpr ⟨by decide, by decide⟩
  exact ⟨v, hv, h.1.2 v hv⟩

end Gkit.Task
