import Gkit.Zset.Skiplist
import Gkit.Library.GoSlice

/-!
`Float64Set` of `structure/zset/zset.go`: the `dict` map from values to scores next to
the skip list. Every method holds the set's mutex for its whole body, so each is one
step on the pair. A method that inserts a node takes the count of zero draws its
`randomLevel` makes; `IncrBy` takes the float addition it performs as a function.
-/

namespace Gkit.Zset

open Redis Float64List

structure Float64Set where
  dict : Assoc String Binary64
  list : Float64List

def NewFloat64 : Float64Set := ⟨.empty,newFloat64List⟩

def normalizeRankRange (length start stop : Int) : Int × Int × Bool :=
  if length = 0 then (0,0,false)
  else
    let start := if start < 0 then start + length else start
    let stop := if stop < 0 then stop + length else stop
    let start := if start < 0 then 0 else start
    if start ≥ length ∨ start > stop then (0,0,false)
    else (start,if stop ≥ length then length - 1 else stop,true)

namespace Float64Set

variable (z : Float64Set)

def Len : Int := z.list.length

def Score (value : String) : Binary64 × Bool :=
  match z.dict.get? value with
  | some s => (s,true)
  | none => (Binary64.zero,false)

/-- `Add`: true when the value is new; a NaN score changes nothing. -/
def Add (score : Binary64) (value : String) (zeros : Nat) : Float64Set × Bool :=
  if score.isNaN then (z,false)
  else
    match z.dict.get? value with
    | some oldScore =>
      if !score.beq oldScore then
        (⟨z.dict.insert value score,(z.list.UpdateScore oldScore value score (randomLevel zeros)).1⟩,
          false)
      else (z,false)
    | none => (⟨z.dict.insert value score,(z.list.Insert score value (randomLevel zeros)).1⟩,true)

def Remove (value : String) : Float64Set × Binary64 × Bool :=
  match z.dict.get? value with
  | none => (z,Binary64.zero,false)
  | some score => (⟨z.dict.erase value,(z.list.Delete score value).1⟩,score,true)

/-- `IncrBy`, with `add` the float64 addition. -/
def IncrBy (add : Binary64 → Binary64 → Binary64) (incr : Binary64) (value : String) (zeros : Nat) :
    Float64Set × Binary64 × Bool :=
  match z.dict.get? value with
  | none =>
    if incr.isNaN then (z,Binary64.zero,false)
    else (⟨z.dict.insert value incr,(z.list.Insert incr value (randomLevel zeros)).1⟩,incr,false)
  | some oldScore =>
    if incr.isNaN then (z,oldScore,true)
    else
      let newScore := add oldScore incr
      if newScore.isNaN then (z,oldScore,true)
      else
        (⟨z.dict.insert value newScore,
          (z.list.UpdateScore oldScore value newScore (randomLevel zeros)).1⟩,newScore,true)

/-- `Rank`: 0-based, -1 for a value not in the set. -/
def Rank (value : String) : Int :=
  match z.dict.get? value with
  | none => -1
  | some score => z.list.Rank score value - 1

def RevRank (value : String) : Int :=
  match z.dict.get? value with
  | none => -1
  | some score => z.list.length - z.list.Rank score value

/-- The result loops of the range reads: from `x`, append nodes while `more` holds of the
counter and the node, stepping by `step`. -/
def collect (more : Int → ListNode → Bool) (step : ListNode → Option Nat) :
    Nat → Option Nat → Int → List Float64Node
  | 0, _, _ => []
  | _ + 1, none, _ => []
  | fuel + 1, some x, c =>
    let n := z.list.node x
    if more c n then ⟨n.value,n.score⟩ :: collect more step fuel (step n) (c + 1) else []

def Range (start stop : Int) : List Float64Node :=
  match normalizeRankRange z.list.length start stop with
  | (_,_,false) => []
  | (start,stop,true) =>
    z.collect (fun c _ => decide (c ≤ stop)) (fun n => n.next 0) z.list.fresh
      (z.list.GetNodeByRank (start + 1)) start

def RevRange (start stop : Int) : List Float64Node :=
  match normalizeRankRange z.list.length start stop with
  | (_,_,false) => []
  | (start,stop,true) =>
    z.collect (fun c _ => decide (c ≤ stop)) ListNode.prev z.list.fresh
      (z.list.GetNodeByRank (z.list.length - start)) start

def RangeByScoreWithOpt (min max : Binary64) (opt : RangeOpt) : List Float64Node :=
  z.collect (fun _ n => n.score.lt max || (!opt.excludeMax && n.score.beq max)) (fun n => n.next 0)
    z.list.fresh (z.list.FirstInRange min max opt) 0

def RevRangeByScoreWithOpt (max min : Binary64) (opt : RangeOpt) : List Float64Node :=
  z.collect (fun _ n => min.lt n.score || (!opt.excludeMin && n.score.beq min)) ListNode.prev
    z.list.fresh (z.list.LastInRange min max opt) 0

def CountWithOpt (min max : Binary64) (opt : RangeOpt) : Int :=
  match z.list.FirstInRange min max opt with
  | none => 0
  | some first =>
    let firstRank := z.list.Rank (z.list.node first).score (z.list.node first).value - 1
    match z.list.LastInRange min max opt with
    | none => z.list.length - firstRank
    | some last => z.list.Rank (z.list.node last).score (z.list.node last).value - 1 - firstRank + 1

/-- `RemoveRangeByRank`, 0-based. -/
def RemoveRangeByRank (start stop : Int) : Float64Set × List Float64Node :=
  let start := if start < 0 then z.list.length + start else start
  let stop := if stop < 0 then z.list.length + stop else stop
  let r := z.list.DeleteRangeByRank (GoSlice.wrap (start + 1)) (GoSlice.wrap (stop + 1)) z.dict
  (⟨r.2.1,r.1⟩,r.2.2)

def RemoveRangeByScoreWithOpt (min max : Binary64) (opt : RangeOpt) : Float64Set × List Float64Node :=
  let r := z.list.DeleteRangeByScore min max opt z.dict
  (⟨r.2.1,r.1⟩,r.2.2)

end Float64Set

/-- The operations that change a `Float64Set`, with the draws their `randomLevel` makes. -/
inductive Float64SetOp
  | add (score : Binary64) (value : String) (zeros : Nat)
  | remove (value : String)
  | incrBy (incr : Binary64) (value : String) (zeros : Nat)
  | removeRangeByRank (start stop : Int)
  | removeRangeByScoreWithOpt (min max : Binary64) (opt : RangeOpt)

/-- One operation on the set. -/
def float64SetStep (add : Binary64 → Binary64 → Binary64) (z : Float64Set) : Float64SetOp → Float64Set
  | .add score value zeros => (z.Add score value zeros).1
  | .remove value => (z.Remove value).1
  | .incrBy incr value zeros => (z.IncrBy add incr value zeros).1
  | .removeRangeByRank start stop => (z.RemoveRangeByRank start stop).1
  | .removeRangeByScoreWithOpt min max opt => (z.RemoveRangeByScoreWithOpt min max opt).1

end Gkit.Zset
