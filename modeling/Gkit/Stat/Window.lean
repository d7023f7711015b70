import Mathlib

/-!
The buckets, the ring window and the iterator of `internal/stat`. A window is a slice of
buckets whose `next` pointers close a ring, so the bucket after index `i` is at `(i + 1) % size`
and the model keeps the slice alone. The points are of any type with an addition: `float64`
in the source.
-/

namespace Gkit.Stat

/-- `Bucket`: the points written in one interval and the number of calls that wrote them. A
bucket without points has had no calls, which is what lets `Window.Add` add to its first
point. -/
structure Bucket (α : Type) where
  Points : List α
  Count : Nat
  count_of_nil : Points = [] → Count = 0

namespace Bucket

variable {α : Type}

@[ext] theorem ext {a b : Bucket α} (hp : a.Points = b.Points) (hc : a.Count = b.Count) : a = b := by
  cases a
  cases b
  subst hp hc
  rfl

/-- `Bucket{Points: make([]float64, 0)}`. -/
def empty : Bucket α := ⟨[],0,fun _ => rfl⟩

def Append (b : Bucket α) (val : α) : Bucket α :=
  ⟨b.Points ++ [val],b.Count + 1,fun h => absurd h (List.append_ne_nil_of_right_ne_nil _ nofun)⟩

/-- `Add`: `b.Points[offset] += val`, for an offset the points have. -/
def Add [Add α] (b : Bucket α) (offset : Nat) (val : α) (h : offset < b.Points.length) : Bucket α :=
  ⟨b.Points.set offset (b.Points[offset] + val),b.Count + 1,fun hnil => by
    have := congrArg List.length hnil
    rw [List.length_set,List.length_nil] at this
    omega⟩

def Reset (_b : Bucket α) : Bucket α := empty

theorem points_ne_nil {b : Bucket α} (h : b.Count ≠ 0) : 0 < b.Points.length :=
  List.length_pos_iff.mpr fun hnil => h (b.count_of_nil hnil)

end Bucket

/-- What `Window.Add` does to the bucket at its offset: the first call of an interval appends
its point, the others add to it. -/
def addOrAppend {α : Type} [Add α] (b : Bucket α) (val : α) : Bucket α :=
  if h : b.Count = 0 then b.Append val else b.Add 0 val (Bucket.points_ne_nil h)

/-- `Window`: the ring of buckets and its size. -/
structure Window (α : Type) where
  window : List (Bucket α)
  size : Nat

namespace Window

variable {α : Type}

def ResetBucket (w : Window α) (offset : Nat) : Window α :=
  { w with window := w.window.modify offset Bucket.Reset }

def Append (w : Window α) (offset : Nat) (val : α) : Window α :=
  { w with window := w.window.modify offset (·.Append val) }

def Add [Add α] (w : Window α) (offset : Nat) (val : α) : Window α :=
  { w with window := w.window.modify offset (addOrAppend · val) }

/-- `Bucket`: the bucket at an offset of the ring; the model's default stands for the panic of
an offset outside it, which no caller makes. -/
def Bucket (w : Window α) (offset : Nat) : Gkit.Stat.Bucket α := w.window[offset]?.getD .empty

def Size (w : Window α) : Nat := w.size

end Window

/-- `NewWindow`: `size` empty buckets. -/
def NewWindow {α : Type} (size : Nat) : Window α := ⟨List.replicate size .empty,size⟩

/-- `Iterator`: `count` buckets of `ring`, read from `cur` on and following the ring. -/
structure Iterator (α : Type) where
  count : Nat
  iteratedCount : Nat
  ring : List (Bucket α)
  cur : Nat

namespace Iterator

variable {α : Type}

def Next (i : Iterator α) : Bool := i.count != i.iteratedCount

/-- `Bucket`: the current bucket and the iterator moved past it; `none` is the panic of an
iterator read past its count. -/
def Bucket (i : Iterator α) : Option (Gkit.Stat.Bucket α × Iterator α) :=
  if i.Next then
    (i.ring[i.cur]?).map fun b =>
      (b,{ i with iteratedCount := i.iteratedCount + 1, cur := (i.cur + 1) % i.ring.length })
  else none

/-- The buckets that the loop `for iterator.Next() { bucket := iterator.Bucket() }` of the
reducers visits, given a bound on its rounds. -/
def visit (i : Iterator α) : Nat → List (Gkit.Stat.Bucket α)
  | 0 => []
  | fuel + 1 =>
    if i.Next then
      match i.Bucket with
      | some (b,i') => b :: i'.visit fuel
      | none => []
    else []

/-- The iterator `Reduce` hands to its reducer: the copied buckets, linked in a ring, from the
first. -/
def ofBuckets (bs : List (Gkit.Stat.Bucket α)) : Iterator α := ⟨bs.length,0,bs,0⟩

end Iterator

end Gkit.Stat
