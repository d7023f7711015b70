import Mathlib

/-!
Version fencing. A record whose every change bumps a version counter is fenced: a token
that remembers the version at which it was issued matches the record again only while
the record is unchanged. `Advances ver x y` says `y` is `x` itself or a later version of
it; `Pointwise` lifts that to lists whose elements are versioned one by one.
-/

namespace Fencing

variable {α β : Type} [Preorder β] (ver : α → β)

/-- `y` is `x` unchanged, or a strictly later version. -/
def Advances (x y : α) : Prop := y = x ∨ ver x < ver y

variable {ver}

theorem Advances.refl (x : α) : Advances ver x x := .inl rfl

theorem Advances.of_lt {x y : α} (h : ver x < ver y) : Advances ver x y := .inr h

theorem Advances.ver_le {x y : α} (h : Advances ver x y) : ver x ≤ ver y := by
  rcases h with rfl | h
  · exact le_rfl
  · exact h.le

theorem Advances.trans {x y z : α} (h₁ : Advances ver x y) (h₂ : Advances ver y z) :
    Advances ver x z := by
  rcases h₁ with rfl | h₁
  · exact h₂
  · exact .inr (lt_of_lt_of_le h₁ h₂.ver_le)

theorem Advances.eq_of_le {x y : α} (h : Advances ver x y) (hv : ver y ≤ ver x) : y = x := by
  rcases h with h | h
  · exact h
  · exact absurd (lt_of_lt_of_le h hv) (lt_irrefl _)

/-- The fencing check: a record that advanced and still shows the token's version is
the record the token was issued for. -/
theorem Advances.eq_of_ver_eq {x y : α} (h : Advances ver x y) (hv : ver y = ver x) : y = x :=
  h.eq_of_le hv.le

variable (ver)

/-- Two lists of the same length whose elements advance position by position. -/
def Pointwise (xs ys : List α) : Prop :=
  ys.length = xs.length ∧
    ∀ (i : Nat) (x y : α), xs[i]? = some x → ys[i]? = some y → Advances ver x y

variable {ver}

theorem Pointwise.refl (xs : List α) : Pointwise ver xs xs := by
  refine ⟨rfl,?_⟩
  intro i x y hx hy
  rw [hx] at hy
  cases hy
  exact .refl x

theorem Pointwise.get {xs ys : List α} (h : Pointwise ver xs ys) {i : Nat} {x : α}
    (hx : xs[i]? = some x) : ∃ y, ys[i]? = some y ∧ Advances ver x y := by
  have hi : i < ys.length := h.1 ▸ (List.getElem?_eq_some_iff.mp hx).1
  exact ⟨ys[i],List.getElem?_eq_getElem hi,h.2 i x _ hx (List.getElem?_eq_getElem hi)⟩

theorem Pointwise.trans {xs ys zs : List α} (h₁ : Pointwise ver xs ys)
    (h₂ : Pointwise ver ys zs) : Pointwise ver xs zs := by
  refine ⟨h₂.1.trans h₁.1,?_⟩
  intro i x z hx hz
  obtain ⟨y,hy,hxy⟩ := h₁.get hx
  exact hxy.trans (h₂.2 i y z hy hz)

theorem Pointwise.set {xs : List α} {i : Nat} {x y : α} (hx : xs[i]? = some x)
    (hv : ver x < ver y) : Pointwise ver xs (xs.set i y) := by
  refine ⟨List.length_set ..,?_⟩
  intro j a b ha hb
  by_cases hj : j = i
  · subst hj
    rw [hx] at ha
    cases ha
    have hi : j < xs.length := (List.getElem?_eq_some_iff.mp hx).1
    rw [List.getElem?_set_self hi] at hb
    cases hb
    exact .of_lt hv
  · rw [List.getElem?_set_ne (Ne.symm hj), ha] at hb
    cases hb
    exact .refl a

theorem Pointwise.map {xs : List α} {f : α → α} (hf : ∀ x ∈ xs, Advances ver x (f x)) :
    Pointwise ver xs (xs.map f) := by
  refine ⟨List.length_map ..,?_⟩
  intro i x y hx hy
  rw [List.getElem?_map, hx] at hy
  cases hy
  exact hf x (List.mem_of_getElem? hx)

end Fencing
