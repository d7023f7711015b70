import Mathlib

/-!
Glob patterns over any alphabet with two letters set apart: `star` stands for any word, `any`
for any one letter, and every other letter for itself. `Produces star any p w` says that `w`
is what the pattern `p` becomes under one such replacement. The lemmas read a pattern from
its first letter, the way a backtracking matcher does.
-/

namespace Glob

variable {α : Type*}

/-- The words a glob pattern produces. -/
inductive Produces (star any : α) : List α → List α → Prop
  | nil : Produces star any [] []
  | starWord (w : List α) {ps s : List α} :
      Produces star any ps s → Produces star any (star :: ps) (w ++ s)
  | anyOne (c : α) {ps s : List α} :
      Produces star any ps s → Produces star any (any :: ps) (c :: s)
  | literal {c : α} {ps s : List α} :
      c ≠ star → c ≠ any → Produces star any ps s → Produces star any (c :: ps) (c :: s)

namespace Produces

variable {star any : α}

@[simp] theorem nil_iff {s : List α} : Produces star any [] s ↔ s = [] := by
  constructor
  · rintro ⟨⟩
    rfl
  · rintro rfl
    exact .nil

theorem star_single (s : List α) : Produces star any [star] s := by
  have : Produces star any [star] (s ++ []) := .starWord s .nil
  rwa [List.append_nil] at this

theorem literal_iff {c : α} (hs : c ≠ star) (ha : c ≠ any) {ps s : List α} :
    Produces star any (c :: ps) s ↔ ∃ s', s = c :: s' ∧ Produces star any ps s' := by
  constructor
  · intro h
    cases h with
    | starWord => exact absurd rfl hs
    | anyOne => exact absurd rfl ha
    | literal _ _ h => exact ⟨_,rfl,h⟩
  · rintro ⟨s',rfl,h⟩
    exact .literal hs ha h

theorem literal_nil {c : α} (hs : c ≠ star) (ha : c ≠ any) {ps : List α} :
    ¬Produces star any (c :: ps) [] := by
  rw [literal_iff hs ha]
  rintro ⟨_,h,-⟩
  cases h

theorem literal_cons_iff {c d : α} (hs : c ≠ star) (ha : c ≠ any) {ps s : List α} :
    Produces star any (c :: ps) (d :: s) ↔ d = c ∧ Produces star any ps s := by
  rw [literal_iff hs ha]
  constructor
  · rintro ⟨_,h,hp⟩
    obtain ⟨rfl,rfl⟩ := List.cons.inj h
    exact ⟨rfl,hp⟩
  · rintro ⟨rfl,hp⟩
    exact ⟨s,rfl,hp⟩

section Distinct

variable (hsa : star ≠ any)
include hsa

theorem star_iff {ps s : List α} :
    Produces star any (star :: ps) s ↔
      Produces star any ps s ∨ ∃ c s', s = c :: s' ∧ Produces star any (star :: ps) s' := by
  constructor
  · intro h
    cases h with
    | starWord w h =>
      cases w with
      | nil => exact Or.inl h
      | cons c w => exact Or.inr ⟨c,w ++ _,rfl,.starWord w h⟩
    | anyOne => exact absurd rfl hsa
    | literal hs => exact absurd rfl hs
  · rintro (h | ⟨c,s',rfl,h⟩)
    · exact .starWord [] h
    · cases h with
      | starWord w h => exact .starWord (c :: w) h
      | anyOne => exact absurd rfl hsa
      | literal hs => exact absurd rfl hs

theorem star_nil_iff {ps : List α} :
    Produces star any (star :: ps) [] ↔ Produces star any ps [] := by
  rw [star_iff hsa]
  constructor
  · rintro (h | ⟨_,_,h,-⟩)
    · exact h
    · cases h
  · exact Or.inl

theorem star_cons_iff {ps s : List α} {c : α} :
    Produces star any (star :: ps) (c :: s) ↔
      Produces star any ps (c :: s) ∨ Produces star any (star :: ps) s := by
  rw [star_iff hsa]
  constructor
  · rintro (h | ⟨_,_,h,hp⟩)
    · exact Or.inl h
    · obtain ⟨rfl,rfl⟩ := List.cons.inj h
      exact Or.inr hp
  · rintro (h | h)
    · exact Or.inl h
    · exact Or.inr ⟨c,s,rfl,h⟩

theorem any_iff {ps s : List α} :
    Produces star any (any :: ps) s ↔ ∃ c s', s = c :: s' ∧ Produces star any ps s' := by
  constructor
  · intro h
    cases h with
    | starWord => exact absurd rfl hsa
    | anyOne c h => exact ⟨c,_,rfl,h⟩
    | literal _ ha => exact absurd rfl ha
  · rintro ⟨c,s',rfl,h⟩
    exact .anyOne c h

theorem any_nil {ps : List α} : ¬Produces star any (any :: ps) [] := by
  rw [any_iff hsa]
  rintro ⟨_,_,h,-⟩
  cases h

theorem any_cons_iff {ps s : List α} {c : α} :
    Produces star any (any :: ps) (c :: s) ↔ Produces star any ps s := by
  rw [any_iff hsa]
  constructor
  · rintro ⟨_,_,h,hp⟩
    obtain ⟨rfl,rfl⟩ := List.cons.inj h
    exact hp
  · intro h
    exact ⟨c,s,rfl,h⟩

theorem star_star {ps s : List α} :
    Produces star any (star :: star :: ps) s ↔ Produces star any (star :: ps) s := by
  constructor
  · intro h
    cases h with
    | starWord w h =>
      cases h with
      | starWord w' h =>
        rw [← List.append_assoc]
        exact .starWord (w ++ w') h
      | anyOne => exact absurd rfl hsa
      | literal hs => exact absurd rfl hs
    | anyOne => exact absurd rfl hsa
    | literal hs => exact absurd rfl hs
  · intro h
    exact .starWord [] h

end Distinct

end Produces

end Glob
