import Mathlib
import Gkit.Library.Runs

/-!
The task heap of `delayed/delayed.go` and the heap operations of `delayed/do.go`. The
`delays` slice is its elements by index and its length; a task is any type with its
`ExecTime`. Each sift keeps the moving task aside and slides the others over the hole it
leaves, as the source does, and writes the task into the hole when the loop ends. The
operations hold the dispatcher's lock for their whole body, so each is one step;
`BadDelayed` is `none`.
-/

namespace Gkit.Delayed

/-- The `delays` slice. -/
structure Delays (τ : Type) where
  get : Nat → τ
  len : Nat

variable {τ : Type} (execTime : τ → Int)

/-- The loop of `siftupDelayed`: the hole at `i` moves up past parents later than `when`;
the result is the slice and where the hole stopped. -/
def siftupLoop (d : Nat → τ) (when : Int) : Nat → (Nat → τ) × Nat
  | 0 => (d,0)
  | i + 1 =>
    if when ≥ execTime (d (i / 4)) then (d,i + 1)
    else siftupLoop (Function.update d (i + 1) (d (i / 4))) when (i / 4)
termination_by i => i
decreasing_by omega

/-- `siftupDelayed`: moves the task at `i` up; returns where it ends, `-1` when it does not
move because `i` is out of range or its time is not positive. -/
def siftupDelayed (d : Delays τ) (i : Nat) : Delays τ × Int :=
  if i ≥ d.len then (d,-1)
  else
    let when := execTime (d.get i)
    if when ≤ 0 then (d,-1)
    else
      let r := siftupLoop execTime d.get when i
      (⟨Function.update r.1 r.2 (d.get i),d.len⟩,r.2)

/-- The child `siftdownDelayed` moves up from below `i`: the earlier of the first two
children, the earlier of the last two, and the earlier of those, with its time. -/
def minChild (d : Nat → τ) (n i : Nat) : Nat × Int :=
  let c := i * 4 + 1
  let c3 := c + 2
  let p := if c + 1 < n ∧ execTime (d (c + 1)) < execTime (d c) then (c + 1,execTime (d (c + 1)))
    else (c,execTime (d c))
  if c3 < n then
    let p3 := if c3 + 1 < n ∧ execTime (d (c3 + 1)) < execTime (d c3)
      then (c3 + 1,execTime (d (c3 + 1))) else (c3,execTime (d c3))
    if p3.2 < p.2 then p3 else p
  else p

theorem minChild_bounds (d : Nat → τ) {n i : Nat} (h : i * 4 + 1 < n) :
    i * 4 + 1 ≤ (minChild execTime d n i).1 ∧ (minChild execTime d n i).1 ≤ i * 4 + 4 ∧
      (minChild execTime d n i).1 < n := by
  unfold minChild
  dsimp only
  split_ifs <;> omega

/-- The loop of `siftdownDelayed`: the hole at `i` moves down while a child is earlier
than `when`. -/
def siftdownLoop (d : Nat → τ) (n : Nat) (when : Int) (i : Nat) : (Nat → τ) × Nat :=
  if h : i * 4 + 1 ≥ n then (d,i)
  else if (minChild execTime d n i).2 ≥ when then (d,i)
  else siftdownLoop (Function.update d i (d (minChild execTime d n i).1)) n when
    (minChild execTime d n i).1
termination_by n - i
decreasing_by
  have := minChild_bounds execTime d (Nat.lt_of_not_ge h)
  omega

def siftdownDelayed (d : Delays τ) (i : Nat) : Delays τ :=
  if i ≥ d.len then d
  else
    let when := execTime (d.get i)
    if when ≤ 0 then d
    else
      let r := siftdownLoop execTime d.get d.len when i
      ⟨Function.update r.1 r.2 (d.get i),d.len⟩

/-- `AddDelayed` on an open dispatcher: a task with a time that is not positive is dropped. -/
def AddDelayed (d : Delays τ) (delayed : τ) : Delays τ :=
  if execTime delayed ≤ 0 then d
  else (siftupDelayed execTime ⟨Function.update d.get d.len delayed,d.len + 1⟩ d.len).1

/-- `delDelayed`: the last task fills slot `i` and is sifted both ways. -/
def delDelayed (d : Delays τ) (i : Nat) : Delays τ × Option τ :=
  if i ≥ d.len then (d,none)
  else
    let last := d.len - 1
    let d' : Delays τ := ⟨if i ≠ last then Function.update d.get i (d.get last) else d.get,last⟩
    if i ≠ last then (siftdownDelayed execTime (siftupDelayed execTime d' i).1 i,some (d.get i))
    else (d',some (d.get i))

def delDelayedTop (d : Delays τ) : Delays τ × Option τ :=
  if d.len = 0 then (d,none)
  else
    let last := d.len - 1
    let d' : Delays τ := ⟨if last > 0 then Function.update d.get 0 (d.get last) else d.get,last⟩
    (if last > 0 then siftdownDelayed execTime d' 0 else d',some (d.get 0))

/-- `popIfReady`: `delDelayedTop`'s pop, when the top is due at `now`. -/
def popIfReady (d : Delays τ) (now : Int) : Delays τ × Option τ :=
  if d.len = 0 then (d,none)
  else if execTime (d.get 0) > now then (d,none)
  else
    let last := d.len - 1
    let d' : Delays τ := ⟨if last > 0 then Function.update d.get 0 (d.get last) else d.get,last⟩
    (if last > 0 then siftdownDelayed execTime d' 0 else d',some (d.get 0))

/-- The calls on the task heap. -/
inductive DelayedOp (τ : Type)
  | addDelayed (delayed : τ)
  | delDelayed (i : Nat)
  | delDelayedTop
  | popIfReady (now : Int)

/-- One call: the heap after it and the task it removed. -/
def dispatch (d : Delays τ) : DelayedOp τ → Delays τ × Option τ
  | .addDelayed x => (AddDelayed execTime d x,none)
  | .delDelayed i => delDelayed execTime d i
  | .delDelayedTop => delDelayedTop execTime d
  | .popIfReady now => popIfReady execTime d now

def delayedStep (d : Delays τ) (op : DelayedOp τ) : Delays τ := (dispatch execTime d op).1

/-- The heap of a new dispatcher. -/
def Delays.empty (g : Nat → τ) : Delays τ := ⟨g,0⟩

end Gkit.Delayed
