import Mathlib

/-!
Decimal text of integers as bytes, the way Go's `strconv.Itoa` writes it and `strconv.Atoi`
reads it back: an optional sign and at least one ASCII digit, most significant first. The text
is built from the core `Nat.toDigits`, so the round trip rests on `Nat.ofDigitChars_toDigits`.
-/

namespace Strconv

/-- An ASCII digit. -/
def isDigit (b : UInt8) : Bool := 48 ≤ b.toNat && b.toNat ≤ 57

/-- The decimal digits of `n` as bytes, most significant first. -/
def formatNat (n : Nat) : List UInt8 := (Nat.toDigits 10 n).map Char.toUInt8

/-- `strconv.Itoa`, also what the `%d` verb prints. -/
def Itoa (i : Int) : List UInt8 :=
  if i < 0 then '-'.toUInt8 :: formatNat i.natAbs else formatNat i.toNat

/-- The value of a nonempty run of digits. -/
def parseNat (s : List UInt8) : Option Nat :=
  if s ≠ [] ∧ s.all isDigit then some (s.foldl (fun n b => 10 * n + (b.toNat - 48)) 0) else none

/-- An optional sign followed by `parseNat`, with no bound on the value. -/
def parseInt : List UInt8 → Option Int
  | [] => none
  | b :: rest =>
    if b = '-'.toUInt8 then (parseNat rest).map fun n : Nat => -(n : Int)
    else if b = '+'.toUInt8 then (parseNat rest).map fun n : Nat => (n : Int)
    else (parseNat (b :: rest)).map fun n : Nat => (n : Int)

/-- `strconv.Atoi`: `parseInt` when the value fits a 64-bit `int`, an error otherwise. -/
def Atoi (s : List UInt8) : Option Int :=
  match parseInt s with
  | some i => if -2 ^ 63 ≤ i ∧ i < 2 ^ 63 then some i else none
  | none => none

/-! ### Digits -/

theorem toNat_toUInt8_of_isDigit {c : Char} (h : c.isDigit) : c.toUInt8.toNat = c.toNat := by
  have hc : c.toNat ≤ 57 := by
    simp only [Char.isDigit, Bool.and_eq_true, decide_eq_true_eq] at h
    exact h.2
  have hval : c.val.toNat = c.toNat := rfl
  show c.val.toUInt8.toNat = c.toNat
  rw [UInt32.toNat_toUInt8,hval]
  exact Nat.mod_eq_of_lt (by omega)

theorem isDigit_toUInt8 {c : Char} (h : c.isDigit) : isDigit c.toUInt8 = true := by
  have hc := h
  simp only [Char.isDigit, Bool.and_eq_true, decide_eq_true_eq] at hc
  simp only [isDigit, toNat_toUInt8_of_isDigit h, Bool.and_eq_true, decide_eq_true_eq]
  exact ⟨hc.1, hc.2⟩

theorem isDigit_of_mem_formatNat {n : Nat} {b : UInt8} (hb : b ∈ formatNat n) : isDigit b = true := by
  obtain ⟨c,hc,rfl⟩ := List.mem_map.mp hb
  exact isDigit_toUInt8 (Nat.isDigit_of_mem_toDigits (by decide) (by decide) hc)

theorem formatNat_ne_nil (n : Nat) : formatNat n ≠ [] := by
  simp only [formatNat,ne_eq,List.map_eq_nil_iff]
  exact Nat.toDigits_ne_nil

theorem parseNat_formatNat (n : Nat) : parseNat (formatNat n) = some n := by
  have hall : (formatNat n).all isDigit = true :=
    List.all_eq_true.mpr fun b hb => isDigit_of_mem_formatNat hb
  have hval : (formatNat n).foldl (fun n b => 10 * n + (b.toNat - 48)) 0 = n := by
    have hdigits := Nat.ofDigitChars_ten_toDigits (n := n)
    rw [Nat.ofDigitChars] at hdigits
    rw [formatNat,List.foldl_map]
    refine Eq.trans (List.foldl_ext _ _ _ fun m c hc => ?_) hdigits
    rw [toNat_toUInt8_of_isDigit (Nat.isDigit_of_mem_toDigits (by decide) (by decide) hc)]
    rfl
  rw [parseNat,if_pos ⟨formatNat_ne_nil n,hall⟩,hval]

/-! ### Signed text -/

theorem mem_itoa {i : Int} {b : UInt8} (hb : b ∈ Itoa i) : isDigit b = true ∨ b = '-'.toUInt8 := by
  unfold Itoa at hb
  split at hb
  · rcases List.mem_cons.mp hb with rfl | hb
    · exact Or.inr rfl
    · exact Or.inl (isDigit_of_mem_formatNat hb)
  · exact Or.inl (isDigit_of_mem_formatNat hb)

theorem not_mem_itoa {i : Int} {b : UInt8} (hd : isDigit b = false) (hm : b ≠ '-'.toUInt8) :
    b ∉ Itoa i := by
  intro hb
  rcases mem_itoa hb with h | h
  · rw [hd] at h
    exact Bool.false_ne_true h
  · exact hm h

theorem formatNat_head {n : Nat} : ∃ b rest, formatNat n = b :: rest ∧ isDigit b = true := by
  obtain ⟨b,rest,h⟩ := List.exists_cons_of_ne_nil (formatNat_ne_nil n)
  exact ⟨b,rest,h,isDigit_of_mem_formatNat (h ▸ List.mem_cons_self)⟩

theorem parseInt_itoa (i : Int) : parseInt (Itoa i) = some i := by
  unfold Itoa
  split
  · case isTrue h =>
    rw [parseInt,if_pos rfl,parseNat_formatNat,Option.map_some]
    congr 1
    omega
  · case isFalse h =>
    obtain ⟨b,rest,hfmt,hb⟩ := formatNat_head (n := i.toNat)
    have hminus : b ≠ '-'.toUInt8 := by
      rintro rfl
      exact absurd hb (by decide)
    have hplus : b ≠ '+'.toUInt8 := by
      rintro rfl
      exact absurd hb (by decide)
    rw [hfmt,parseInt,if_neg hminus,if_neg hplus,← hfmt,parseNat_formatNat,Option.map_some]
    congr 1
    omega

theorem atoi_itoa {i : Int} (h : -2 ^ 63 ≤ i ∧ i < 2 ^ 63) : Atoi (Itoa i) = some i := by
  simp only [Atoi,parseInt_itoa,if_pos h]

example : Itoa (-305) = "-305".toList.map Char.toUInt8 := by decide
example : Atoi ("+42".toList.map Char.toUInt8) = some 42 := by decide

end Strconv
