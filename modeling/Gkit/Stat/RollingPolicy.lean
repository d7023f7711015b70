import Gkit.Stat.Window

/-!
`RollingPolicy` of `internal/stat/rolling_policy.go`. Time is an explicit parameter in
nanoseconds, so `time.Since(r.lastAppendTime)` is `now - r.lastAppendTime`; `Duration`
division truncates, as `Int.tdiv` does. The lock only makes each call atomic, and each call is
a function of the state here.
-/

namespace Gkit.Stat

structure RollingPolicy (α : Type) where
  size : Nat
  window : Window α
  offset : Nat
  bucketDuration : Int
  lastAppendTime : Int

namespace RollingPolicy

variable {α : Type}

/-- `timespan`: the whole intervals since the last append; a clock that went back counts as
`size` of them. -/
def timespan (r : RollingPolicy α) (now : Int) : Int :=
  let v := (now - r.lastAppendTime).tdiv r.bucketDuration
  if v > -1 then v else r.size

/-- The loop `for i := s; i < e; i++ { r.window.ResetBucket(i); offset = i }` of `add`, run
`k` times from `i`. -/
def resetRun (w : Window α) (offset i : Nat) : Nat → Window α × Nat
  | 0 => (w,offset)
  | k + 1 => resetRun (w.ResetBucket i) i (i + 1) k

/-- `add`: after `timespan` whole intervals, the buckets after `offset` are reset, at most
`size` of them and going round the ring once, and `offset` moves to the last one reset; then
`f` writes the value at `offset`. -/
def add (r : RollingPolicy α) (f : Window α → Nat → α → Window α) (val : α) (now : Int) :
    RollingPolicy α :=
  let timespan := r.timespan now
  let r :=
    if timespan > 0 then
      let lastAppendTime := r.lastAppendTime + timespan * r.bucketDuration
      let offset := r.offset
      let s := offset + 1
      let timespan := if timespan > r.size then (r.size : Int) else timespan
      let e := s + timespan.toNat
      let e1 := if e > r.size then e - r.size else 0
      let e := if e > r.size then r.size else e
      let first := resetRun r.window offset s (e - s)
      let second := resetRun first.1 first.2 0 e1
      { r with lastAppendTime := lastAppendTime, window := second.1, offset := second.2 }
    else r
  { r with window := f r.window r.offset val }

def Append (r : RollingPolicy α) (val : α) (now : Int) : RollingPolicy α :=
  r.add Window.Append val now

def Add [Add α] (r : RollingPolicy α) (val : α) (now : Int) : RollingPolicy α :=
  r.add Window.Add val now

/-- `Reduce`: the `size - timespan` buckets from the one after the current interval's
`timespan` skipped ones, copied, to `f`; the zero value when there are none. -/
def Reduce [Zero α] (r : RollingPolicy α) (now : Int) (f : Iterator α → α) : α :=
  let timespan := r.timespan now
  let count := (r.size : Int) - timespan
  if count > 0 then
    let offset := r.offset + timespan.toNat + 1
    let offset := if offset ≥ r.size then offset - r.size else offset
    let buckets := (List.range count.toNat).map fun i =>
      let source := r.window.Bucket ((offset + i) % r.size)
      (⟨source.Points,source.Count,source.count_of_nil⟩ : Bucket α)
    f (Iterator.ofBuckets buckets)
  else 0

end RollingPolicy

/-- `NewRollingPolicy`, created at `now`. -/
def NewRollingPolicy {α : Type} (window : Window α) (bucketDuration : Int) (now : Int) :
    RollingPolicy α :=
  { size := window.Size, window := window, offset := 0, bucketDuration := bucketDuration,
    lastAppendTime := now }

end Gkit.Stat
