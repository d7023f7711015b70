import Mathlib

/-!
Absorbing a sequence in blocks of `B` while more than `B` elements remain: the loop shape of
hash functions that mix whole blocks and keep the last, possibly full, block for a final step.
The lemmas say that the loop can be stopped and resumed at any point of the input, which is
what makes a buffered streaming version agree with a one-shot one.
-/

namespace BlockStream

variable {σ α : Type}

/-- Mix the first `B` elements into the state while more than `B` remain; return the state and
the rest, which has between `1` and `B` elements when the input is not empty. -/
def absorb (B : Nat) [NeZero B] (f : σ → List α → σ) (s : σ) (data : List α) : σ × List α :=
  if B < data.length then absorb B f (f s (data.take B)) (data.drop B) else (s, data)
termination_by data.length
decreasing_by
  have := Nat.pos_of_neZero B
  rw [List.length_drop]
  omega

variable {B : Nat} [NeZero B] {f : σ → List α → σ}

theorem absorb_of_le {s : σ} {data : List α} (h : data.length ≤ B) :
    absorb B f s data = (s, data) := by
  rw [absorb, if_neg (by omega)]

theorem absorb_of_lt {s : σ} {data : List α} (h : B < data.length) :
    absorb B f s data = absorb B f (f s (data.take B)) (data.drop B) := by
  rw [absorb, if_pos h]

theorem length_absorb_le (s : σ) (data : List α) : (absorb B f s data).2.length ≤ B := by
  induction s, data using absorb.induct B f with
  | case1 s data h ih => rw [absorb_of_lt h]; exact ih
  | case2 s data h =>
    rw [absorb_of_le (Nat.le_of_not_lt h)]
    exact Nat.le_of_not_lt h

theorem absorb_ne_nil {s : σ} {data : List α} (h : data ≠ []) : (absorb B f s data).2 ≠ [] := by
  induction s, data using absorb.induct B f with
  | case1 s data hlt ih =>
    rw [absorb_of_lt hlt]
    refine ih fun hnil => ?_
    have := congrArg List.length hnil
    rw [List.length_drop, List.length_nil] at this
    omega
  | case2 s data hle =>
    rw [absorb_of_le (Nat.le_of_not_lt hle)]
    exact h

/-- The loop can be resumed: absorbing `w ++ x` is absorbing `w` and then the rest of `w`
followed by `x`. -/
theorem absorb_append (s : σ) (w x : List α) :
    absorb B f s (w ++ x) = absorb B f (absorb B f s w).1 ((absorb B f s w).2 ++ x) := by
  induction s, w using absorb.induct B f with
  | case1 s w h ih =>
    have hlt : B < (w ++ x).length := by rw [List.length_append]; omega
    rw [absorb_of_lt hlt, absorb_of_lt h, List.take_append_of_le_length (by omega),
      List.drop_append_of_le_length (by omega), ih]
  | case2 s w h =>
    have hw : absorb B f s w = (s, w) := absorb_of_le (Nat.le_of_not_lt h)
    rw [hw]

end BlockStream
