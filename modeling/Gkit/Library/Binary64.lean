import Mathlib

/-!
IEEE 754 binary64 values and the comparisons Go's `float64` operators make on them. A value
is its three fields; NaN is every value with the top exponent and a non-zero fraction.
Away from NaN, ordering is by the sign-magnitude integer of the encoding, which is the
order of the real values, with the two zeros equal.
-/

/-- A binary64 value by its fields. -/
structure Binary64 where
  sign : Bool
  exponent : Fin 2048
  fraction : Fin 4503599627370496
deriving DecidableEq, Repr

namespace Binary64

/-- The field widths are positive, so the literals of the fields are values. -/
instance neZero_exponentWidth : NeZero (2048 : Nat) := ⟨by decide⟩

instance neZero_fractionWidth : NeZero (4503599627370496 : Nat) := ⟨by decide⟩

def isNaN (x : Binary64) : Bool := x.exponent = 2047 && x.fraction ≠ 0

/-- The encoding's magnitude bits, as a number. -/
def magnitude (x : Binary64) : Nat := x.exponent.val * 4503599627370496 + x.fraction.val

/-- The sign-magnitude integer of the encoding: the real order on non-NaN values. -/
def key (x : Binary64) : Int := if x.sign then -(x.magnitude : Int) else x.magnitude

/-- Go's `x < y`: false when either side is NaN. -/
def lt (x y : Binary64) : Bool := !x.isNaN && !y.isNaN && decide (x.key < y.key)

/-- Go's `x == y`: false when either side is NaN; `-0 == +0`. -/
def beq (x y : Binary64) : Bool := !x.isNaN && !y.isNaN && decide (x.key = y.key)

/-- Go's `x <= y`. -/
def le (x y : Binary64) : Bool := lt x y || beq x y

def zero : Binary64 := ⟨false,0,0⟩

/-- `math.MaxFloat64`. -/
def maxFloat64 : Binary64 := ⟨false,2046,4503599627370495⟩

def neg (x : Binary64) : Binary64 := { x with sign := !x.sign }

section Compare

variable {x y : Binary64}

theorem lt_eq (hx : x.isNaN = false) (hy : y.isNaN = false) : x.lt y = decide (x.key < y.key) := by
  simp [lt,hx,hy]

theorem beq_eq (hx : x.isNaN = false) (hy : y.isNaN = false) : x.beq y = decide (x.key = y.key) := by
  simp [beq,hx,hy]

theorem lt_iff (hx : x.isNaN = false) (hy : y.isNaN = false) : x.lt y = true ↔ x.key < y.key := by
  simp [lt,hx,hy]

theorem beq_iff (hx : x.isNaN = false) (hy : y.isNaN = false) : x.beq y = true ↔ x.key = y.key := by
  simp [beq,hx,hy]

theorem le_iff (hx : x.isNaN = false) (hy : y.isNaN = false) : x.le y = true ↔ x.key ≤ y.key := by
  rw [le,Bool.or_eq_true,lt_iff hx hy,beq_iff hx hy]
  omega

theorem lt_eq_true_iff : x.lt y = true ↔ x.isNaN = false ∧ y.isNaN = false ∧ x.key < y.key := by
  simp [lt,and_assoc]

theorem le_eq_true_iff : x.le y = true ↔ x.isNaN = false ∧ y.isNaN = false ∧ x.key ≤ y.key := by
  unfold le lt beq
  cases x.isNaN <;> cases y.isNaN <;> simp
  omega

@[simp] theorem lt_of_isNaN_left (hx : x.isNaN = true) : x.lt y = false := by simp [lt,hx]

@[simp] theorem lt_of_isNaN_right (hy : y.isNaN = true) : x.lt y = false := by simp [lt,hy]

@[simp] theorem beq_of_isNaN_left (hx : x.isNaN = true) : x.beq y = false := by simp [beq,hx]

@[simp] theorem beq_of_isNaN_right (hy : y.isNaN = true) : x.beq y = false := by simp [beq,hy]

end Compare

theorem maxFloat64_isNaN : maxFloat64.isNaN = false := by decide

theorem neg_isNaN (x : Binary64) : x.neg.isNaN = x.isNaN := rfl

end Binary64
