import Mathlib

/-!
Go slices and `int` arithmetic, for shallow models of Go code. A slice is its backing array
from its first element and its length, with the capacity the array's length; an element the
program has not written (what a recycled allocation holds) is `none`. The slice expressions
and `copy` panic where the Go run-time does, and `int` additions wrap.
-/

namespace GoSlice

/-- Go's `int` arithmetic on a 64-bit target: the integer wrapped into `[-2^63, 2^63)`. -/
def wrap (x : Int) : Int := x.bmod (2 ^ 64)

theorem wrap_of_lt {x : Int} (hlo : -2 ^ 63 ≤ x) (hhi : x < 2 ^ 63) : wrap x = x :=
  Int.bmod_eq_of_le (by omega) (by omega)

/-- The run-time panics of slice operations. -/
inductive Panic
  /-- `make` with a length out of range. -/
  | makesliceLen
  /-- A slice expression or an index out of range. -/
  | bounds
deriving DecidableEq, Repr

/-- A slice: the backing array from its first element, and the length. -/
structure Slice (α : Type) where
  arr : List (Option α)
  len : Nat
  len_le : len ≤ arr.length

namespace Slice

variable {α : Type}

def cap (s : Slice α) : Nat := s.arr.length

/-- The elements `s[0:len(s)]`. -/
def elems (s : Slice α) : List (Option α) := s.arr.take s.len

/-- `s[:k]`. -/
def reslice (s : Slice α) (k : Int) : Except Panic (Slice α) :=
  if h : 0 ≤ k ∧ k.toNat ≤ s.arr.length then .ok ⟨s.arr,k.toNat,h.2⟩ else .error .bounds

/-- The elements of `s[lo:hi]`. -/
def view (s : Slice α) (lo hi : Int) : Except Panic (List (Option α)) :=
  if 0 ≤ lo ∧ lo ≤ hi ∧ hi ≤ s.arr.length then .ok ((s.arr.take hi.toNat).drop lo.toNat)
  else .error .bounds

/-- The elements of `s[lo:]`. -/
def suffix (s : Slice α) (lo : Int) : Except Panic (List (Option α)) := s.view lo s.len

/-- The array with `xs` written from `pos` on, where it fits. -/
def overwrite (arr : List (Option α)) (pos : Nat) (xs : List (Option α)) : List (Option α) :=
  arr.take pos ++ xs ++ arr.drop (pos + xs.length)

theorem length_overwrite {arr : List (Option α)} {pos : Nat} {xs : List (Option α)}
    (h : pos + xs.length ≤ arr.length) : (overwrite arr pos xs).length = arr.length := by
  simp only [overwrite,List.length_append,List.length_take,List.length_drop]
  omega

/-- `copy(s[pos:], src)`: the first `min(len(s) - pos, len(src))` elements of `src` written
from `pos` on, and their count. -/
def copyAt (s : Slice α) (pos : Int) (src : List (Option α)) : Except Panic (Slice α × Nat) :=
  if h : 0 ≤ pos ∧ pos ≤ s.len then
    .ok (⟨overwrite s.arr pos.toNat (src.take (s.len - pos.toNat)),s.len,by
      rw [length_overwrite (by simp only [List.length_take]; have := s.len_le; omega)]
      exact s.len_le⟩,min (s.len - pos.toNat) src.length)
  else .error .bounds

@[ext] theorem ext {s t : Slice α} (harr : s.arr = t.arr) (hlen : s.len = t.len) : s = t := by
  cases s
  cases t
  cases harr
  cases hlen
  rfl

theorem reslice_ok {s : Slice α} {k : Int} (h0 : 0 ≤ k) (hk : k ≤ s.cap) :
    ∃ t, s.reslice k = .ok t ∧ t.arr = s.arr ∧ t.len = k.toNat := by
  unfold reslice
  rw [dif_pos ⟨h0,by unfold cap at hk; omega⟩]
  exact ⟨_,rfl,rfl,rfl⟩

theorem view_ok {s : Slice α} {lo hi : Int} (h0 : 0 ≤ lo) (hlo : lo ≤ hi) (hhi : hi ≤ s.cap) :
    s.view lo hi = .ok ((s.arr.take hi.toNat).drop lo.toNat) := by
  unfold view
  rw [if_pos ⟨h0,hlo,hhi⟩]

theorem suffix_ok {s : Slice α} {lo : Int} (h0 : 0 ≤ lo) (hlo : lo ≤ s.len) :
    s.suffix lo = .ok (s.elems.drop lo.toNat) := by
  unfold suffix elems
  rw [view_ok h0 hlo (by have := s.len_le; unfold cap; omega)]
  rfl

theorem copyAt_ok {s : Slice α} {pos : Int} (src : List (Option α)) (h0 : 0 ≤ pos)
    (hpos : pos ≤ s.len) :
    ∃ t, s.copyAt pos src = .ok (t,min (s.len - pos.toNat) src.length) ∧
      t.arr = overwrite s.arr pos.toNat (src.take (s.len - pos.toNat)) ∧ t.len = s.len := by
  unfold copyAt
  rw [dif_pos ⟨h0,hpos⟩]
  exact ⟨_,rfl,rfl,rfl⟩

theorem take_overwrite {arr : List (Option α)} {pos n : Nat} {xs : List (Option α)}
    (hpos : pos ≤ arr.length) (hn : pos + xs.length ≤ n) :
    (overwrite arr pos xs).take n = arr.take pos ++ xs ++ (arr.take n).drop (pos + xs.length) := by
  unfold overwrite
  have hlen : (arr.take pos ++ xs).length = pos + xs.length := by
    rw [List.length_append,List.length_take,Nat.min_eq_left hpos]
  rw [List.take_append,hlen,List.take_of_length_le (by omega),List.drop_take]

theorem set_eq_overwrite {arr : List (Option α)} {pos : Nat} (x : Option α) (h : pos < arr.length) :
    arr.set pos x = overwrite arr pos [x] := by
  rw [List.set_eq_take_append_cons_drop,if_pos h]
  simp [overwrite]

theorem length_elems (s : Slice α) : s.elems.length = s.len := by
  unfold elems
  rw [List.length_take]
  exact Nat.min_eq_left s.len_le

/-- The idiom of `Append`: `copy(s[len(s):k], xs)` and then `s[:len(s)+m]`, for the count `m`
the copy returns; `xs` ends up after the elements when it fits before `k`. -/
theorem copy_extend {s : Slice α} {k : Int} (xs : List (Option α)) (hk : s.len + xs.length ≤ k)
    (hcap : k ≤ s.cap) :
    ∃ d t u, s.reslice k = .ok d ∧ d.copyAt s.len xs = .ok (t,xs.length) ∧
      t.reslice (s.len + xs.length) = .ok u ∧ u.arr = overwrite s.arr s.len xs ∧
      u.len = s.len + xs.length := by
  obtain ⟨d,hd,hdarr,hdlen⟩ := reslice_ok (by omega) hcap
  obtain ⟨t,ht,htarr,htlen⟩ := copyAt_ok (s := d) xs (show (0 : Int) ≤ s.len by omega) (by omega)
  rw [Int.toNat_natCast,List.take_of_length_le (by omega),hdarr] at htarr
  rw [Int.toNat_natCast,show min (d.len - s.len) xs.length = xs.length by omega] at ht
  have htcap : s.len + xs.length ≤ t.cap := by
    unfold cap at *
    rw [htarr,length_overwrite (by omega)]
    omega
  obtain ⟨u,hu,huarr,hulen⟩ := reslice_ok (s := t) (k := s.len + xs.length) (by omega)
    (by omega)
  exact ⟨d,t,u,hd,ht,hu,by rw [huarr,htarr],by rw [hulen]; omega⟩

end Slice

/-- The index expression `s[k]` of a slice whose elements are all written, or of a string. -/
def index {α : Type} (xs : List α) (k : Int) : Except Panic α :=
  if h : 0 ≤ k ∧ k.toNat < xs.length then .ok (xs.get ⟨k.toNat, h.2⟩) else .error .bounds

/-- The slice expression `s[lo:hi]` of a string, whose capacity is its length. -/
def substr {α : Type} (xs : List α) (lo hi : Int) : Except Panic (List α) :=
  if 0 ≤ lo ∧ lo ≤ hi ∧ hi ≤ xs.length then .ok ((xs.take hi.toNat).drop lo.toNat)
  else .error .bounds

theorem index_isOk {α : Type} {xs : List α} {k : Int} (h0 : 0 ≤ k) (hk : k < xs.length) :
    ∃ a, index xs k = .ok a :=
  ⟨_, dif_pos ⟨h0, by omega⟩⟩

theorem substr_isOk_iff {α : Type} {xs : List α} {lo hi : Int} :
    (∃ t, substr xs lo hi = .ok t) ↔ 0 ≤ lo ∧ lo ≤ hi ∧ hi ≤ xs.length := by
  unfold substr
  split_ifs with h <;> simp [h]

@[simp] theorem ok_bind {ε α β : Type} (a : α) (f : α → Except ε β) :
    (Except.ok a >>= f) = f a := rfl

@[simp] theorem error_bind {ε α β : Type} (e : ε) (f : α → Except ε β) :
    (Except.error e >>= f) = .error e := rfl

theorem bind_eq_ok_iff {ε α β : Type} {x : Except ε α} {f : α → Except ε β} {b : β} :
    (x >>= f) = .ok b ↔ ∃ a, x = .ok a ∧ f a = .ok b := by
  cases x <;> simp

theorem mapError_eq_ok_iff {ε ε' α : Type} {g : ε → ε'} {x : Except ε α} {a : α} :
    x.mapError g = .ok a ↔ x = .ok a := by
  cases x <;> simp [Except.mapError]

/-- A loop over a slice that succeeds at each element returns the mapped slice. -/
theorem mapM_map_eq_ok {ε α β γ : Type} {f : β → Except ε γ} {d : α → β} {g : α → γ} :
    ∀ {xs : List α}, (∀ x ∈ xs, f (d x) = .ok (g x)) → (xs.map d).mapM f = .ok (xs.map g)
  | [], _ => rfl
  | x :: xs, h => by
    have hx := h x List.mem_cons_self
    have hxs := mapM_map_eq_ok fun y hy => h y (List.mem_cons_of_mem x hy)
    simp only [List.map_cons, List.mapM_cons, hx, hxs]
    rfl

end GoSlice
