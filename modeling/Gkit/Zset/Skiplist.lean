import Gkit.Library.Binary64
import Gkit.Library.SkipList
import Gkit.Library.Runs
import Gkit.Library.Redis

/-!
The skip list of `structure/zset/skiplist.go`. Pointers are node ids into a heap of
nodes, node `0` being the header and ids from `fresh` on unallocated; a deleted node
stays in the heap, unreachable, as it would until Go collects it. A node's
`optionalArray` is a pair of total functions of the level. Every loop over the levels
is a `Runs.forRange`, and every walk along one level is `SkipList.walk` with the heap's
links, bounded by the number of allocated nodes.
-/

namespace Gkit.Zset

open Runs

def maxLevel : Nat := 32

/-- `float64ListNode`. -/
structure ListNode where
  score : Binary64
  value : String
  prev : Option Nat
  level : Nat
  next : Nat → Option Nat
  span : Nat → Int

def newFloat64ListNode (score : Binary64) (value : String) (level : Nat) : ListNode :=
  ⟨score,value,none,level,fun _ => none,fun _ => 0⟩

namespace ListNode

def lessThan (n : ListNode) (score : Binary64) (value : String) : Bool :=
  if n.score.lt score then true
  else if n.score.beq score then decide (n.value < value) else false

def lessEqual (n : ListNode) (score : Binary64) (value : String) : Bool :=
  if n.score.lt score then true
  else if n.score.beq score then decide (n.value ≤ value) else false

def equal (n : ListNode) (score : Binary64) (value : String) : Bool :=
  n.value = value && n.score.beq score

end ListNode

/-- `float64List`, with the heap its pointers point into. -/
structure Float64List where
  nodes : Nat → ListNode
  fresh : Nat
  tail : Option Nat
  length : Int
  highestLevel : Nat

/-- The header's id. -/
def header : Nat := 0

/-- `newFloat64List`: the header has score `-math.MaxFloat64` and value `"__HEADER"`. -/
def newFloat64List : Float64List :=
  ⟨fun _ => newFloat64ListNode Binary64.maxFloat64.neg "__HEADER" maxLevel,1,none,0,1⟩

namespace Float64List

variable (l : Float64List)

def node (n : Nat) : ListNode := l.nodes n

def loadNext (n i : Nat) : Option Nat := (l.node n).next i

def loadSpan (n i : Nat) : Int := (l.node n).span i

def modify (n : Nat) (f : ListNode → ListNode) : Float64List :=
  { l with nodes := Function.update l.nodes n (f (l.node n)) }

def storeNext (n i : Nat) (p : Option Nat) : Float64List :=
  l.modify n fun x => { x with next := Function.update x.next i p }

def storeSpan (n i : Nat) (s : Int) : Float64List :=
  l.modify n fun x => { x with span := Function.update x.span i s }

def storeNextAndSpan (n i : Nat) (p : Option Nat) (s : Int) : Float64List :=
  (l.storeNext n i p).storeSpan n i s

def setPrev (n : Nat) (p : Option Nat) : Float64List := l.modify n fun x => { x with prev := p }

def setTail (t : Option Nat) : Float64List := { l with tail := t }

def setLength (n : Int) : Float64List := { l with length := n }

def setHighestLevel (h : Nat) : Float64List := { l with highestLevel := h }

/-! The heap operations change one field of one node; the lemmas say which. -/

section Heap

variable {n m i j : Nat}

@[simp] theorem modify_node (f : ListNode → ListNode) :
    (l.modify n f).node m = if m = n then f (l.node n) else l.node m := by
  simp only [modify,node,Function.update_apply]

@[simp] theorem loadNext_storeNext (p : Option Nat) :
    (l.storeNext n i p).loadNext m j = if m = n ∧ j = i then p else l.loadNext m j := by
  unfold storeNext loadNext
  rw [modify_node]
  by_cases hm : m = n <;> by_cases hj : j = i <;> simp [hm,hj]

@[simp] theorem loadSpan_storeNext (p : Option Nat) :
    (l.storeNext n i p).loadSpan m j = l.loadSpan m j := by
  unfold storeNext loadSpan
  rw [modify_node]
  by_cases hm : m = n <;> simp [hm]

@[simp] theorem loadNext_storeSpan (s : Int) :
    (l.storeSpan n i s).loadNext m j = l.loadNext m j := by
  unfold storeSpan loadNext
  rw [modify_node]
  by_cases hm : m = n <;> simp [hm]

@[simp] theorem loadSpan_storeSpan (s : Int) :
    (l.storeSpan n i s).loadSpan m j = if m = n ∧ j = i then s else l.loadSpan m j := by
  unfold storeSpan loadSpan
  rw [modify_node]
  by_cases hm : m = n <;> by_cases hj : j = i <;> simp [hm,hj]

@[simp] theorem loadNext_setPrev (p : Option Nat) : (l.setPrev n p).loadNext m j = l.loadNext m j := by
  unfold setPrev loadNext
  rw [modify_node]
  by_cases hm : m = n <;> simp [hm]

@[simp] theorem loadSpan_setPrev (p : Option Nat) : (l.setPrev n p).loadSpan m j = l.loadSpan m j := by
  unfold setPrev loadSpan
  rw [modify_node]
  by_cases hm : m = n <;> simp [hm]

@[simp] theorem setPrev_prev (p : Option Nat) :
    ((l.setPrev n p).node m).prev = if m = n then p else (l.node m).prev := by
  unfold setPrev
  rw [modify_node]
  by_cases hm : m = n <;> simp [hm]

@[simp] theorem setPrev_score (p : Option Nat) : ((l.setPrev n p).node m).score = (l.node m).score := by
  unfold setPrev
  rw [modify_node]
  by_cases hm : m = n <;> simp [hm]

@[simp] theorem setPrev_value (p : Option Nat) : ((l.setPrev n p).node m).value = (l.node m).value := by
  unfold setPrev
  rw [modify_node]
  by_cases hm : m = n <;> simp [hm]

@[simp] theorem setPrev_level (p : Option Nat) : ((l.setPrev n p).node m).level = (l.node m).level := by
  unfold setPrev
  rw [modify_node]
  by_cases hm : m = n <;> simp [hm]

@[simp] theorem setTail_node (t : Option Nat) : (l.setTail t).node m = l.node m := rfl

@[simp] theorem loadNext_setTail (t : Option Nat) : (l.setTail t).loadNext m j = l.loadNext m j := rfl

@[simp] theorem loadSpan_setTail (t : Option Nat) : (l.setTail t).loadSpan m j = l.loadSpan m j := rfl

/-- What the link stores leave of a node: everything but its links. -/
structure SameNode (a b : ListNode) : Prop where
  score : a.score = b.score
  value : a.value = b.value
  prev : a.prev = b.prev
  level : a.level = b.level

theorem SameNode.refl (a : ListNode) : SameNode a a := ⟨rfl,rfl,rfl,rfl⟩

theorem SameNode.trans {a b c : ListNode} (h : SameNode a b) (h' : SameNode b c) : SameNode a c :=
  ⟨h.score.trans h'.score,h.value.trans h'.value,h.prev.trans h'.prev,h.level.trans h'.level⟩

theorem sameNode_storeNext (p : Option Nat) : SameNode ((l.storeNext n i p).node m) (l.node m) := by
  unfold storeNext
  rw [modify_node]
  by_cases hm : m = n
  · subst hm
    simp only [if_true]
    exact ⟨rfl,rfl,rfl,rfl⟩
  · simp only [hm,if_false]
    exact SameNode.refl _

theorem sameNode_storeSpan (s : Int) : SameNode ((l.storeSpan n i s).node m) (l.node m) := by
  unfold storeSpan
  rw [modify_node]
  by_cases hm : m = n
  · subst hm
    simp only [if_true]
    exact ⟨rfl,rfl,rfl,rfl⟩
  · simp only [hm,if_false]
    exact SameNode.refl _

@[simp] theorem storeNext_fresh (p : Option Nat) : (l.storeNext n i p).fresh = l.fresh := rfl
@[simp] theorem storeNext_tail (p : Option Nat) : (l.storeNext n i p).tail = l.tail := rfl
@[simp] theorem storeNext_length (p : Option Nat) : (l.storeNext n i p).length = l.length := rfl
@[simp] theorem storeNext_highestLevel (p : Option Nat) :
    (l.storeNext n i p).highestLevel = l.highestLevel := rfl
@[simp] theorem storeSpan_fresh (s : Int) : (l.storeSpan n i s).fresh = l.fresh := rfl
@[simp] theorem storeSpan_tail (s : Int) : (l.storeSpan n i s).tail = l.tail := rfl
@[simp] theorem storeSpan_length (s : Int) : (l.storeSpan n i s).length = l.length := rfl
@[simp] theorem storeSpan_highestLevel (s : Int) :
    (l.storeSpan n i s).highestLevel = l.highestLevel := rfl
@[simp] theorem setPrev_fresh (p : Option Nat) : (l.setPrev n p).fresh = l.fresh := rfl
@[simp] theorem setPrev_tail (p : Option Nat) : (l.setPrev n p).tail = l.tail := rfl
@[simp] theorem setPrev_length (p : Option Nat) : (l.setPrev n p).length = l.length := rfl
@[simp] theorem setPrev_highestLevel (p : Option Nat) :
    (l.setPrev n p).highestLevel = l.highestLevel := rfl
@[simp] theorem setLength_node (k : Int) : (l.setLength k).node m = l.node m := rfl
@[simp] theorem loadNext_setLength (k : Int) : (l.setLength k).loadNext m j = l.loadNext m j := rfl
@[simp] theorem loadSpan_setLength (k : Int) : (l.setLength k).loadSpan m j = l.loadSpan m j := rfl
@[simp] theorem setLength_fresh (k : Int) : (l.setLength k).fresh = l.fresh := rfl
@[simp] theorem setLength_tail (k : Int) : (l.setLength k).tail = l.tail := rfl
@[simp] theorem setLength_length (k : Int) : (l.setLength k).length = k := rfl
@[simp] theorem setLength_highestLevel (k : Int) : (l.setLength k).highestLevel = l.highestLevel := rfl
@[simp] theorem setHighestLevel_node (h : Nat) : (l.setHighestLevel h).node m = l.node m := rfl
@[simp] theorem loadNext_setHighestLevel (h : Nat) :
    (l.setHighestLevel h).loadNext m j = l.loadNext m j := rfl
@[simp] theorem loadSpan_setHighestLevel (h : Nat) :
    (l.setHighestLevel h).loadSpan m j = l.loadSpan m j := rfl
@[simp] theorem setHighestLevel_fresh (h : Nat) : (l.setHighestLevel h).fresh = l.fresh := rfl
@[simp] theorem setHighestLevel_tail (h : Nat) : (l.setHighestLevel h).tail = l.tail := rfl
@[simp] theorem setHighestLevel_length (h : Nat) : (l.setHighestLevel h).length = l.length := rfl
@[simp] theorem setHighestLevel_highestLevel (h : Nat) : (l.setHighestLevel h).highestLevel = h := rfl
@[simp] theorem setTail_fresh (t : Option Nat) : (l.setTail t).fresh = l.fresh := rfl
@[simp] theorem setTail_tail (t : Option Nat) : (l.setTail t).tail = t := rfl
@[simp] theorem setTail_length (t : Option Nat) : (l.setTail t).length = l.length := rfl
@[simp] theorem setTail_highestLevel (t : Option Nat) : (l.setTail t).highestLevel = l.highestLevel := rfl

end Heap

/-- A walk along level `i` from `x`, at rank `r`, while `go` accepts the rank it would
reach and the next node. -/
def walk (go : Int → Nat → Bool) (i x : Nat) (r : Int) : Nat × Int :=
  SkipList.walk l.loadNext l.loadSpan go i l.fresh x r

/-- The search loop of `Insert`, `Delete`, `UpdateScore` and the range deletions: the
`update[i]` and `rank[i]` arrays it fills, from the top level down. -/
def search (go : Int → Nat → Bool) : (Nat → Nat) × (Nat → Int) :=
  SkipList.descend l.loadNext l.loadSpan go l.fresh header l.highestLevel header 0

/-! ### Insert -/

/-- One level `Insert` creates: `update[i]` is the header, `rank[i]` is 0, and the
header's link at `i` spans the whole list. -/
def createLevel (acc : Float64List × (Nat → Nat) × (Nat → Int)) (i : Nat) :
    Float64List × (Nat → Nat) × (Nat → Int) :=
  (acc.1.storeSpan header i acc.1.length,Function.update acc.2.1 i header,Function.update acc.2.2 i 0)

def createLevels (update : Nat → Nat) (rank : Nat → Int) (level : Nat) :
    Float64List × (Nat → Nat) × (Nat → Int) :=
  forRange createLevel l.highestLevel (level - l.highestLevel) (l,update,rank)

/-- One level of the splice: `x` takes over the link of `update[i]`, which links to `x`. -/
def linkLevel (x : Nat) (update : Nat → Nat) (rank : Nat → Int) (i : Nat) : Float64List :=
  let l := l.storeNext x i (l.loadNext (update i) i)
  let l := l.storeNext (update i) i (some x)
  let l := l.storeSpan x i (l.loadSpan (update i) i - (rank 0 - rank i))
  l.storeSpan (update i) i (rank 0 - rank i + 1)

def linkLevels (x : Nat) (update : Nat → Nat) (rank : Nat → Int) (level : Nat) : Float64List :=
  forRange (fun l i => l.linkLevel x update rank i) 0 level l

/-- "Increment span for untouched levels." -/
def passLevel (update : Nat → Nat) (i : Nat) : Float64List :=
  l.storeSpan (update i) i (l.loadSpan (update i) i + 1)

def passLevels (update : Nat → Nat) (level : Nat) : Float64List :=
  forRange (fun l i => l.passLevel update i) level (l.highestLevel - level) l

/-- The levels above `highestLevel` that `Insert` adds for a node of `level`. -/
def grow (update : Nat → Nat) (rank : Nat → Int) (level : Nat) :
    Float64List × (Nat → Nat) × (Nat → Int) :=
  if level > l.highestLevel then
    let c := l.createLevels update rank level
    (c.1.setHighestLevel level,c.2.1,c.2.2)
  else (l,update,rank)

/-- `newFloat64ListNode`'s allocation: the node and its id. -/
def alloc (n : ListNode) : Float64List × Nat :=
  ({ l with nodes := Function.update l.nodes l.fresh n, fresh := l.fresh + 1 },l.fresh)

/-- "Update back pointer", and the tail when `x` is last. -/
def linkPrev (x before : Nat) : Float64List :=
  let l := if before ≠ header then l.setPrev x (some before) else l
  match l.loadNext x 0 with
  | some n => l.setPrev n (some x)
  | none => l.setTail (some x)

/-- `Insert`, with the level `randomLevel` drew; returns the new node's id. -/
def Insert (score : Binary64) (value : String) (level : Nat) : Float64List × Nat :=
  let s := l.search fun _ n => (l.node n).lessThan score value
  let g := l.grow s.1 s.2 level
  let a := g.1.alloc (newFloat64ListNode score value level)
  let l := ((a.1.linkLevels a.2 g.2.1 g.2.2 level).passLevels g.2.1 level).linkPrev a.2 (g.2.1 0)
  (l.setLength (l.length + 1),a.2)

/-- `randomLevel`, given how many of its `fastrand.Uint32n(4)` draws came out 0 before
the first that did not. -/
def randomLevel (zeros : Nat) : Nat := if zeros + 1 > maxLevel then maxLevel else zeros + 1

/-! ### Delete -/

/-- One level of `deleteNode`'s unlinking: `update[i]` takes over `x`'s link, or passes
over one node fewer. -/
def unlinkLevel (x : Nat) (update : Nat → Nat) (i : Nat) : Float64List :=
  if l.loadNext (update i) i = some x then
    l.storeNextAndSpan (update i) i (l.loadNext x i) (l.loadSpan x i + l.loadSpan (update i) i - 1)
  else l.storeSpan (update i) i (l.loadSpan (update i) i - 1)

def unlinkLevels (x : Nat) (update : Nat → Nat) : Float64List :=
  forRange (fun l i => l.unlinkLevel x update i) 0 l.highestLevel l

/-- The loop dropping empty top levels, with the level count as fuel. -/
def dropLevels : Nat → Float64List → Float64List
  | 0, l => l
  | fuel + 1, l =>
    if l.highestLevel > 1 ∧ l.loadNext header (l.highestLevel - 1) = none then
      dropLevels fuel
        ((l.storeNextAndSpan header (l.highestLevel - 1) none 0).setHighestLevel (l.highestLevel - 1))
    else l

/-- The back pointer of `x`'s successor, or the tail when `x` was last. -/
def unlinkPrev (x : Nat) : Float64List :=
  match l.loadNext x 0 with
  | some n => l.setPrev n (l.node x).prev
  | none => l.setTail (l.node x).prev

def deleteNode (x : Nat) (update : Nat → Nat) : Float64List :=
  let l := (l.unlinkLevels x update).unlinkPrev x
  let l := dropLevels l.highestLevel l
  l.setLength (l.length - 1)

/-- `Delete`; returns the deleted node. -/
def Delete (score : Binary64) (value : String) : Float64List × Option Nat :=
  let s := l.search fun _ n => (l.node n).lessThan score value
  match l.loadNext (s.1 0) 0 with
  | some x => if (l.node x).equal score value then (l.deleteNode x s.1,some x) else (l,none)
  | none => (l,none)

/-- `UpdateScore`, with the level a re-insertion draws. The element must exist: where it
does not, Go dereferences nil, and the model leaves the list as it is. -/
def UpdateScore (oldScore : Binary64) (value : String) (newScore : Binary64) (level : Nat) :
    Float64List × Nat :=
  let s := l.search fun _ n => (l.node n).lessThan oldScore value
  match l.loadNext (s.1 0) 0 with
  | none => (l,header)
  | some x =>
    let n := l.node x
    let prevBelow := match n.prev with
      | none => true
      | some p => (l.node p).score.lt newScore
    let nextAbove := match n.next 0 with
      | none => true
      | some q => newScore.lt (l.node q).score
    -- fast path: the node stays where it is
    if prevBelow && nextAbove then (l.modify x fun n => { n with score := newScore },x)
    else (l.deleteNode x s.1).Insert newScore n.value level

end Float64List

/-! ### Ranges -/

structure RangeOpt where
  excludeMin : Bool
  excludeMax : Bool
deriving DecidableEq

def greaterThanMin (value min : Binary64) (ex : Bool) : Bool :=
  if ex then min.lt value else min.le value

def lessThanMax (value max : Binary64) (ex : Bool) : Bool :=
  if ex then value.lt max else value.le max

structure Float64Node where
  value : String
  score : Binary64
deriving DecidableEq

namespace Float64List

variable (l : Float64List)

/-- The deletion loop of `DeleteRangeByScore` and `DeleteRangeByRank`: from `x`, at rank
`traversed`, delete nodes while `more` holds of the rank and the node, dropping their
values from `dict`. -/
def deleteRun (update : Nat → Nat) (more : Int → ListNode → Bool) :
    Nat → Float64List → Redis.Assoc String Binary64 → List Float64Node → Int → Option Nat →
      Float64List × Redis.Assoc String Binary64 × List Float64Node
  | 0, l, dict, removed, _, _ => (l,dict,removed)
  | _ + 1, l, dict, removed, _, none => (l,dict,removed)
  | fuel + 1, l, dict, removed, traversed, some x =>
    if more traversed (l.node x) then
      let next := l.loadNext x 0
      let l := l.deleteNode x update
      let n := l.node x
      deleteRun update more fuel l (dict.erase n.value) (removed ++ [⟨n.value,n.score⟩])
        (traversed + 1) next
    else (l,dict,removed)

def DeleteRangeByScore (min max : Binary64) (opt : RangeOpt) (dict : Redis.Assoc String Binary64) :
    Float64List × Redis.Assoc String Binary64 × List Float64Node :=
  let s := l.search fun _ n => !greaterThanMin (l.node n).score min opt.excludeMin
  deleteRun s.1 (fun _ n => lessThanMax n.score max opt.excludeMax) l.fresh l dict [] 0
    (l.loadNext (s.1 0) 0)

/-- `DeleteRangeByRank`, with 1-based `start` and `end`. -/
def DeleteRangeByRank (start stop : Int) (dict : Redis.Assoc String Binary64) :
    Float64List × Redis.Assoc String Binary64 × List Float64Node :=
  let s := l.search fun r _ => decide (r < start)
  deleteRun s.1 (fun t _ => decide (t ≤ stop)) l.fresh l dict [] (s.2 0 + 1) (l.loadNext (s.1 0) 0)

/-- The level loop of `Rank`, which returns as soon as a level stops at an equal node. -/
def rankLevels (score : Binary64) (value : String) : Nat → Nat → Int → Int
  | 0, _, _ => 0
  | i + 1, x, rank =>
    let p := l.walk (fun _ n => (l.node n).lessEqual score value) i x rank
    if (l.node p.1).equal score value then p.2 else rankLevels score value i p.1 p.2

/-- `Rank`: 1-based, 0 when not found. -/
def Rank (score : Binary64) (value : String) : Int := l.rankLevels score value l.highestLevel header 0

/-- The level loop of `GetNodeByRank`. -/
def rankedLevels (rank : Int) : Nat → Nat → Int → Option Nat
  | 0, _, _ => none
  | i + 1, x, traversed =>
    let p := l.walk (fun r _ => decide (r ≤ rank)) i x traversed
    if p.2 = rank then some p.1 else rankedLevels rank i p.1 p.2

/-- `GetNodeByRank`, 1-based. -/
def GetNodeByRank (rank : Int) : Option Nat :=
  if rank ≤ 0 then none else l.rankedLevels rank l.highestLevel header 0

def IsInRange (min max : Binary64) (opt : RangeOpt) : Bool :=
  if max.lt min || (min.beq max && (opt.excludeMin || opt.excludeMax)) then false
  else
    match l.tail with
    | none => false
    | some t =>
      if !greaterThanMin (l.node t).score min opt.excludeMin then false
      else
        match l.loadNext header 0 with
        | none => false
        | some n => lessThanMax (l.node n).score max opt.excludeMax

def FirstInRange (min max : Binary64) (opt : RangeOpt) : Option Nat :=
  if !l.IsInRange min max opt then none
  else
    let s := l.search fun _ n => !greaterThanMin (l.node n).score min opt.excludeMin
    match l.loadNext (s.1 0) 0 with
    | none => none
    | some x => if !lessThanMax (l.node x).score max opt.excludeMax then none else some x

def LastInRange (min max : Binary64) (opt : RangeOpt) : Option Nat :=
  if !l.IsInRange min max opt then none
  else
    let x := (l.search fun _ n => lessThanMax (l.node n).score max opt.excludeMax).1 0
    if !greaterThanMin (l.node x).score min opt.excludeMin then none else some x

end Float64List

end Gkit.Zset
