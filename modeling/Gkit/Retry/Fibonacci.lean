import Mathlib
import Gkit.Library.GoSlice

/-!
`FibonacciNext` of `distributed/retry/fibonacci.go`. An `int` is an integer at most `MaxInt`
whose additions wrap (`GoSlice.wrap`). The loop keeps two consecutive Fibonacci numbers `a ≤ b`
with `a ≤ start`; since `b` never exceeds `MaxInt`, it runs at most 91 times before one of its
returns. The model gives the loop that many iterations and `none` once they run out, and the
results below show that it never runs out.
-/

namespace Gkit.Retry

open GoSlice

/-- `math.MaxInt` on a 64-bit target. -/
def MaxInt : Int := 2 ^ 63 - 1

/-- The loop `for a <= start { ... }` of `FibonacciNext`, with `add` for the `int` addition and
at most `fuel` iterations. -/
def nextLoop (add : Int → Int → Int) (start : Int) : Nat → Int → Int → Option Int
  | 0, _, _ => none
  | fuel + 1, a, b =>
    if a ≤ start then
      if b > start then some b
      -- the guard against `a+b` overflowing
      else if a > MaxInt - b then some MaxInt
      else nextLoop add start fuel b (add a b)
    else some a

def FibonacciNext (start : Int) : Option Int :=
  nextLoop (fun a b => wrap (a + b)) start 91 1 1

/-! ### No addition wraps -/

/-- From nonnegative `a` and `b`, every addition the loop makes passed the guard, so Go's
wrapping addition is the exact one. -/
theorem nextLoop_wrap (start : Int) (fuel : Nat) {a b : Int} (ha : 0 ≤ a) (hb : 0 ≤ b) :
    nextLoop (fun a b => wrap (a + b)) start fuel a b = nextLoop (· + ·) start fuel a b := by
  induction fuel generalizing a b with
  | zero => rfl
  | succ fuel ih =>
    simp only [nextLoop]
    split
    · split
      · rfl
      · split
        · rfl
        · case isFalse hfit =>
          have hsum : wrap (a + b) = a + b := by
            apply wrap_of_lt
            · omega
            · unfold MaxInt at hfit
              omega
          rw [hsum]
          exact ih hb (Int.add_nonneg ha hb)
    · rfl

/-! ### The Fibonacci numbers above `start` -/

/-- The Fibonacci numbers `1, 2, 3, 5, 8, …` above `start`. -/
def fibAbove (start : Int) : Set Int := {v | ∃ n, 0 < n ∧ v = Nat.fib n ∧ start < v}

/-- What `FibonacciNext` is to return: the least Fibonacci number above `start` when it is at
most `MaxInt`, and `MaxInt` otherwise. -/
def FibNextSpec (start r : Int) : Prop :=
  (IsLeast (fibAbove start) r ∧ r ≤ MaxInt) ∨ (r = MaxInt ∧ ∀ v ∈ fibAbove start, MaxInt < v)

theorem fib_le_of_fibAbove {start : Int} {k : Nat} (ha : (Nat.fib k : Int) ≤ start) {v : Int}
    (hv : v ∈ fibAbove start) : ∃ n, k < n ∧ v = Nat.fib n := by
  obtain ⟨n, -, rfl, hlt⟩ := hv
  refine ⟨n, ?_, rfl⟩
  by_contra hn
  have : Nat.fib n ≤ Nat.fib k := Nat.fib_mono (Nat.le_of_not_lt hn)
  omega

theorem isLeast_fibAbove_one {start : Int} (h : start < 1) : IsLeast (fibAbove start) 1 := by
  refine ⟨⟨1, Nat.one_pos, by rw [Nat.fib_one, Nat.cast_one], h⟩, ?_⟩
  rintro v ⟨n, hn, rfl, -⟩
  have := Nat.fib_pos.mpr hn
  omega

theorem isLeast_fibAbove {start : Int} {k : Nat} (ha : (Nat.fib (k + 1) : Int) ≤ start)
    (hb : start < Nat.fib (k + 2)) : IsLeast (fibAbove start) (Nat.fib (k + 2)) := by
  refine ⟨⟨k + 2, Nat.succ_pos _, rfl, hb⟩, ?_⟩
  intro v hv
  obtain ⟨n, hn, rfl⟩ := fib_le_of_fibAbove ha hv
  exact_mod_cast Nat.fib_mono hn

/-- When `b ≤ start` and `a + b` would pass `MaxInt`, so does every Fibonacci number above
`start`. -/
theorem fibAbove_gt {start : Int} {k : Nat} (hb : (Nat.fib (k + 2) : Int) ≤ start)
    (hover : MaxInt < Nat.fib (k + 1) + Nat.fib (k + 2)) : ∀ v ∈ fibAbove start, MaxInt < v := by
  intro v hv
  obtain ⟨n, hn, rfl⟩ := fib_le_of_fibAbove hb hv
  have hmono : Nat.fib (k + 3) ≤ Nat.fib n := Nat.fib_mono hn
  have hsum : Nat.fib (k + 3) = Nat.fib (k + 1) + Nat.fib (k + 2) := Nat.fib_add_two
  have : (Nat.fib (k + 1) : Int) + Nat.fib (k + 2) ≤ Nat.fib n := by exact_mod_cast hsum ▸ hmono
  omega

theorem maxInt_lt_fib_93 : MaxInt < Nat.fib 93 := by
  unfold MaxInt
  decide

/-! ### The loop -/

/-- The loop over `(fib (k+1), fib (k+2))` with `fib (k+1) ≤ start` returns what
`FibonacciNext` is to return, before its iterations run out. -/
theorem nextLoop_spec (start : Int) (fuel k : Nat) (hfuel : 91 ≤ fuel + k)
    (ha : (Nat.fib (k + 1) : Int) ≤ start) (hb : (Nat.fib (k + 2) : Int) ≤ MaxInt) :
    ∃ r, nextLoop (· + ·) start fuel (Nat.fib (k + 1)) (Nat.fib (k + 2)) = some r ∧
      FibNextSpec start r := by
  induction fuel generalizing k with
  | zero =>
    -- `b` would be `fib 93` or later, past `MaxInt`
    have : Nat.fib 93 ≤ Nat.fib (k + 2) := Nat.fib_mono (by omega)
    have := maxInt_lt_fib_93
    omega
  | succ fuel ih =>
    rw [nextLoop, if_pos ha]
    split
    · case isTrue hgt => exact ⟨_, rfl, .inl ⟨isLeast_fibAbove ha hgt, hb⟩⟩
    · case isFalse hle =>
      split
      · case isTrue hover =>
        exact ⟨_, rfl, .inr ⟨rfl, fibAbove_gt (Int.not_lt.mp hle) (by omega)⟩⟩
      · case isFalse hfit =>
        have hsum : (Nat.fib (k + 1) : Int) + Nat.fib (k + 2) = Nat.fib (k + 1 + 2) := by
          rw [Nat.fib_add_two (n := k + 1), Nat.cast_add]
        rw [hsum]
        exact ih (k + 1) (by omega) (Int.not_lt.mp hle) (by omega)

theorem fibonacciNext_spec (start : Int) (hhi : start ≤ MaxInt) :
    FibonacciNext start = nextLoop (· + ·) start 91 1 1 ∧
      ∃ r, FibonacciNext start = some r ∧ FibNextSpec start r := by
  have hwrap : FibonacciNext start = nextLoop (· + ·) start 91 1 1 :=
    nextLoop_wrap start 91 Int.one_nonneg Int.one_nonneg
  refine ⟨hwrap, ?_⟩
  rw [hwrap]
  by_cases h1 : start < 1
  · -- the loop does not run: `a = 1` is already above `start`
    refine ⟨1, ?_, .inl ⟨isLeast_fibAbove_one h1, by unfold MaxInt; omega⟩⟩
    rw [nextLoop, if_neg (by omega)]
  · have hspec := nextLoop_spec start 91 0 (by omega)
      (by rw [Nat.fib_one, Nat.cast_one]; omega) (by rw [Nat.fib_two, Nat.cast_one]; unfold MaxInt; omega)
    rwa [Nat.fib_one, Nat.fib_two, Nat.cast_one] at hspec

theorem fibonacciNext_spec_hundred :
    (100 : Int) ≤ MaxInt ∧ ∃ r, FibonacciNext 100 = some r ∧ FibNextSpec 100 r :=
  ⟨by decide, (fibonacciNext_spec 100 (by decide)).2⟩

example : FibonacciNext 100 = some 144 := by decide

example : FibonacciNext MaxInt = some MaxInt := by decide

end Gkit.Retry
