import Mathlib

/-!
The bucketed time window of `window/leap_array.go`, `window/array.go` and `window/bucket.go`.
A `LeapArray` keeps `n` slots, one bucket each; a time `now` falls in the slot
`now / bucketSize % n`, and the bucket it belongs to starts at `now - now % bucketSize`.

Times are `uint64` milliseconds: they are naturals below `2 ^ 64`, and the two places where the
source's arithmetic can wrap, the `startTime += bucketSize` of `NewAtomicArrayWithTime` and the
`now - ws` of `isDisable`, wrap explicitly. The model is the behaviour with one caller at a
time: `TryLock` finds the mutex free, and a `compareAndSwap` of the slot `getBucketOfTime` has
just read always swaps, so each call of `getBucketOfTime` returns in the first turn of its loop.
The clock read of `NewAtomicArray` is the argument `now`.
-/

namespace Gkit.Window

/-- The errors of `leap_array.go`. -/
inductive LeapError
  | bucketBuilderIsNil
  | windowNotSegmentation
  | timeBehindStart
deriving DecidableEq, Repr

def LeapError.message : LeapError → String
  | .bucketBuilderIsNil => "invalid parameters, Builder is nil"
  | .windowNotSegmentation => "invalid parameters,window is not segmentation"
  | .timeBehindStart => "time already behind bucketStart"

/-- A `Bucket`: its start time and the value its builder made for it. -/
structure Bucket (V : Type) where
  Start : Nat
  Value : V
deriving DecidableEq, Repr

/-- A `BucketBuilder`: the value of an empty bucket, and `Reset`. -/
structure BucketBuilder (V : Type) where
  NewEmptyBucket : V
  Reset : Bucket V → Nat → Bucket V

variable {V : Type}

/-- The builder of the tests' `Mock`: `Reset` sets the start it is given. -/
def resetBuilder (empty : V) : BucketBuilder V := ⟨empty, fun b startTime => { b with Start := startTime }⟩

def calculateStartTime (now bucketSize : Nat) : Nat := now - now % bucketSize

/-- `isHit`: the sum `b.Start + bucketSize` is a `uint64`. -/
def Bucket.isHit (b : Bucket V) (now bucketSize : Nat) : Bool :=
  b.Start ≤ now && now < (b.Start + bucketSize) % 2 ^ 64

/-- An `AtomicArray`: `length` slots, each `nil` or a bucket. -/
structure AtomicArray (V : Type) where
  length : Nat
  data : List (Option (Bucket V))
  length_data : data.length = length

namespace AtomicArray

/-- `getBucket`: the slot `index % length`, through `offset`. -/
def getBucket (a : AtomicArray V) (index : Nat) : Option (Bucket V) :=
  if a.length = 0 then none else (a.data[index % a.length]?).join

/-- `compareAndSwap` of a slot against the bucket just read from it: with one caller at a time
the comparison holds, and the slot takes the new bucket. -/
def compareAndSwap (a : AtomicArray V) (index : Nat) (new : Bucket V) : AtomicArray V :=
  if a.length = 0 then a
  else ⟨a.length, a.data.set (index % a.length) (some new), by rw [List.length_set, a.length_data]⟩

end AtomicArray

/-- One loop of `NewAtomicArrayWithTime`: `count` slots from `i` on get a bucket each, the start
time advancing by `bucketSize` as a `uint64`. -/
def fillSlots (bucketSize : Nat) (empty : V) :
    (count i startTime : Nat) → List (Option (Bucket V)) → List (Option (Bucket V)) × Nat
  | 0, _, startTime, data => (data, startTime)
  | count + 1, i, startTime, data =>
    fillSlots bucketSize empty count (i + 1) ((startTime + bucketSize) % 2 ^ 64)
      (data.set i (some ⟨startTime, empty⟩))

theorem length_fillSlots (bucketSize : Nat) (empty : V) :
    ∀ count i startTime (data : List (Option (Bucket V))),
      (fillSlots bucketSize empty count i startTime data).1.length = data.length
  | 0, _, _, _ => rfl
  | count + 1, i, startTime, data => by
    rw [fillSlots, length_fillSlots, List.length_set]

/-- `NewAtomicArrayWithTime`: the slots from the current one to the end, then those before it,
get consecutive start times from the current bucket's on; those before the current slot so start
in the next turn of the ring. -/
def NewAtomicArrayWithTime (length bucketSize now : Nat) (Builder : BucketBuilder V) :
    AtomicArray V :=
  let index := now / bucketSize % length
  let startTime := calculateStartTime now bucketSize
  let first := fillSlots bucketSize Builder.NewEmptyBucket (length - index) index startTime
    (List.replicate length none)
  let second := fillSlots bucketSize Builder.NewEmptyBucket index 0 first.2 first.1
  ⟨length, second.1, by rw [length_fillSlots, length_fillSlots, List.length_replicate]⟩

/-- A `LeapArray`, without its mutex. -/
structure LeapArray (V : Type) where
  bucketSize : Nat
  intervalSize : Nat
  n : Nat
  array : AtomicArray V

namespace LeapArray

def getTimeIndex (s : LeapArray V) (now : Nat) : Nat := now / s.bucketSize % s.array.length

/-- `getBucketOfTime`, the first turn of its loop: a `nil` slot takes a new bucket, a bucket of
the same start is returned, an older one is replaced by a reset bucket, and a newer one is an
error unless the ring has one slot. -/
def getBucketOfTime (s : LeapArray V) (now : Nat) (builder : BucketBuilder V) :
    Except LeapError (Bucket V) × LeapArray V :=
  let index := s.getTimeIndex now
  let start := calculateStartTime now s.bucketSize
  match s.array.getBucket index with
  | none =>
    let b : Bucket V := ⟨start, builder.NewEmptyBucket⟩
    (.ok b, { s with array := s.array.compareAndSwap index b })
  | some old =>
    if start = old.Start then (.ok old, s)
    else if start > old.Start then
      let candidate := builder.Reset ⟨start, builder.NewEmptyBucket⟩ start
      (.ok candidate, { s with array := s.array.compareAndSwap index candidate })
    else if s.n = 1 then (.ok old, s)
    else (.error .timeBehindStart, s)

/-- `isDisable`: `now - ws` is a `uint64` difference, so a bucket that starts after `now` is
far in the past to it. -/
def isDisable (s : LeapArray V) (now : Nat) (b : Bucket V) : Bool :=
  (now + 2 ^ 64 - b.Start) % 2 ^ 64 > s.intervalSize

def getValueOfTime (s : LeapArray V) (now : Nat) : List (Bucket V) :=
  (List.range s.array.length).filterMap fun i =>
    (s.array.getBucket i).filter fun b => !s.isDisable now b

def ValuesChick (s : LeapArray V) (now : Nat) (chick : Nat → Bool) : List (Bucket V) :=
  (List.range s.array.length).filterMap fun i =>
    (s.array.getBucket i).filter fun b => !s.isDisable now b && chick b.Start

/-- Calls of `getBucketOfTime` one after another, with their results. -/
def run (s : LeapArray V) (builder : BucketBuilder V) :
    List Nat → List (Except LeapError (Bucket V)) × LeapArray V
  | [] => ([], s)
  | now :: times =>
    let step := s.getBucketOfTime now builder
    let rest := step.2.run builder times
    (step.1 :: rest.1, rest.2)

end LeapArray

/-- `NewLeapArray`, with `now` the clock read of `NewAtomicArray`. -/
def NewLeapArray (n intervalSize : Nat) (builder : Option (BucketBuilder V)) (now : Nat) :
    Except LeapError (LeapArray V) :=
  match builder with
  | none => .error .bucketBuilderIsNil
  | some builder =>
    if n = 0 ∨ intervalSize = 0 then .error .windowNotSegmentation
    else if intervalSize % n ≠ 0 then .error .windowNotSegmentation
    else
      let bucketSize := intervalSize / n
      .ok ⟨bucketSize, intervalSize, n, NewAtomicArrayWithTime n bucketSize now builder⟩

/-! ### The ring of slots -/

namespace AtomicArray

@[simp] theorem length_compareAndSwap (a : AtomicArray V) (index : Nat) (new : Bucket V) :
    (a.compareAndSwap index new).length = a.length := by
  unfold compareAndSwap
  split <;> rfl

/-- A swap writes its own slot and leaves every other slot as it was. -/
theorem getBucket_compareAndSwap (a : AtomicArray V) (hlen : 0 < a.length) (index j : Nat)
    (new : Bucket V) :
    (a.compareAndSwap index new).getBucket j =
      if index % a.length = j % a.length then some new else a.getBucket j := by
  have hne : a.length ≠ 0 := Nat.pos_iff_ne_zero.mp hlen
  have hlt : index % a.length < a.data.length := by
    rw [a.length_data]
    exact Nat.mod_lt _ hlen
  simp only [compareAndSwap, getBucket, if_neg hne, List.getElem?_set, if_pos hlt]
  split_ifs <;> rfl

end AtomicArray

/-- The start time a loop of `NewAtomicArrayWithTime` ends with. -/
theorem fillSlots_snd (bucketSize : Nat) (empty : V) :
    ∀ count i startTime (data : List (Option (Bucket V))), startTime < 2 ^ 64 →
      (fillSlots bucketSize empty count i startTime data).2 = (startTime + count * bucketSize) % 2 ^ 64
  | 0, _, startTime, _, hst => by
    rw [fillSlots, Nat.zero_mul, Nat.add_zero, Nat.mod_eq_of_lt hst]
  | count + 1, i, startTime, data, _ => by
    rw [fillSlots, fillSlots_snd bucketSize empty count _ _ _ (Nat.mod_lt _ (by omega)),
      Nat.succ_mul]
    omega

/-- The slots a loop of `NewAtomicArrayWithTime` writes, and those it leaves. -/
theorem getElem?_fillSlots (bucketSize : Nat) (empty : V) :
    ∀ count i startTime (data : List (Option (Bucket V))), startTime < 2 ^ 64 →
      i + count ≤ data.length → ∀ j, (fillSlots bucketSize empty count i startTime data).1[j]? =
        if i ≤ j ∧ j < i + count then some (some ⟨(startTime + (j - i) * bucketSize) % 2 ^ 64, empty⟩)
        else data[j]?
  | 0, i, _, _, _, _, j => by
    rw [fillSlots, if_neg (by omega)]
  | count + 1, i, startTime, data, hst, hlen, j => by
    rw [fillSlots, getElem?_fillSlots bucketSize empty count (i + 1) _ _ (Nat.mod_lt _ (by omega))
      (by rw [List.length_set]; omega), List.getElem?_set]
    rcases Nat.lt_trichotomy j i with hj | rfl | hj
    · rw [if_neg (by omega), if_neg (by omega), if_neg (by omega)]
    · rw [if_neg (by omega), if_pos rfl, if_pos (by omega), if_pos (by omega), Nat.sub_self,
        Nat.zero_mul, Nat.add_zero, Nat.mod_eq_of_lt hst]
    · have hstep : (j - i) * bucketSize = (j - (i + 1)) * bucketSize + bucketSize := by
        rw [show j - i = j - (i + 1) + 1 by omega, Nat.succ_mul]
      by_cases hin : j < i + 1 + count
      · rw [if_pos ⟨by omega, hin⟩, if_pos ⟨by omega, by omega⟩, hstep]
        congr 3
        omega
      · rw [if_neg (by omega), if_neg (by omega), if_neg (by omega)]

/-- Slot `j` of a new ring starts `(j - index) mod length` buckets after the current one. -/
theorem getBucket_NewAtomicArrayWithTime {length bucketSize now : Nat} (Builder : BucketBuilder V)
    (hlen : 0 < length) (hnow : now < 2 ^ 64) {j : Nat} (hj : j < length) :
    (NewAtomicArrayWithTime length bucketSize now Builder).getBucket j =
      some ⟨(calculateStartTime now bucketSize +
        (j + length - now / bucketSize % length) % length * bucketSize) % 2 ^ 64,
        Builder.NewEmptyBucket⟩ := by
  set index := now / bucketSize % length with hindex
  set S := calculateStartTime now bucketSize with hS
  have hidx : index < length := Nat.mod_lt _ hlen
  have hSlt : S < 2 ^ 64 := by rw [hS, calculateStartTime]; omega
  set first := fillSlots bucketSize Builder.NewEmptyBucket (length - index) index S
    (List.replicate length none) with hfirst_def
  have hfirst := getElem?_fillSlots bucketSize Builder.NewEmptyBucket (length - index) index S
    (List.replicate length none) hSlt (by rw [List.length_replicate]; omega)
  have hsnd : first.2 = (S + (length - index) * bucketSize) % 2 ^ 64 :=
    fillSlots_snd bucketSize Builder.NewEmptyBucket (length - index) index S _ hSlt
  have hsecond := getElem?_fillSlots bucketSize Builder.NewEmptyBucket index 0 first.2 first.1
    (by rw [hsnd]; exact Nat.mod_lt _ (by omega))
    (by rw [hfirst_def, length_fillSlots, List.length_replicate]; omega) j
  simp only [NewAtomicArrayWithTime, AtomicArray.getBucket, if_neg (Nat.pos_iff_ne_zero.mp hlen),
    Nat.mod_eq_of_lt hj]
  rw [← hindex, ← hS, ← hfirst_def, hsecond]
  by_cases hji : j < index
  case pos =>
    have hd : (j + length - index) % length = length - index + j := by
      rw [Nat.mod_eq_of_lt (by omega)]
      omega
    rw [if_pos ⟨Nat.zero_le _, by omega⟩, hsnd, hd, Nat.sub_zero, Nat.add_mul]
    simp only [Option.join_some, Option.some.injEq, Bucket.mk.injEq, and_true]
    omega
  case neg =>
    have hd : (j + length - index) % length = j - index := by
      rw [show j + length - index = j - index + length by omega, Nat.add_mod_right,
        Nat.mod_eq_of_lt (by omega)]
    rw [if_neg (by omega), hfirst_def, hfirst, if_pos ⟨by omega, by omega⟩, hd]
    rfl

/-! ### Aligned rings -/

theorem calculateStartTime_eq (now bucketSize : Nat) :
    calculateStartTime now bucketSize = now / bucketSize * bucketSize := by
  have := Nat.div_add_mod now bucketSize
  rw [calculateStartTime, Nat.mul_comm]
  omega

/-- Two ids of one residue class, the first below `B + n` and the second from `B` on, are in
order: a bucket never starts after a later time that falls into its slot. -/
theorem le_of_mod_eq {n s b B : Nat} (hmod : s % n = b % n) (hB : B ≤ b) (hs : s < B + n) :
    s ≤ b := by
  by_contra h
  have hdvd : n ∣ s - b := Nat.dvd_of_mod_eq_zero (Nat.sub_mod_eq_zero_of_mod_eq hmod)
  have := Nat.le_of_dvd (by omega) hdvd
  omega

namespace LeapArray

/-- What `getBucketOfTime` can do to the ring: nothing, or swap the bucket of `now`'s slot. -/
theorem getBucketOfTime_snd (s : LeapArray V) (now : Nat) (builder : BucketBuilder V) :
    (s.getBucketOfTime now builder).2 = s ∨
      ∃ b, (s.getBucketOfTime now builder).2 =
        { s with array := s.array.compareAndSwap (s.getTimeIndex now) b } := by
  unfold getBucketOfTime
  dsimp only
  cases s.array.getBucket (s.getTimeIndex now) with
  | none => exact .inr ⟨_, rfl⟩
  | some old =>
    dsimp only
    split_ifs
    · exact .inl rfl
    · exact .inr ⟨_, rfl⟩
    · exact .inl rfl
    · exact .inl rfl

@[simp] theorem bucketSize_getBucketOfTime (s : LeapArray V) (now : Nat) (builder : BucketBuilder V) :
    (s.getBucketOfTime now builder).2.bucketSize = s.bucketSize := by
  rcases s.getBucketOfTime_snd now builder with h | ⟨b, h⟩ <;> rw [h]

@[simp] theorem intervalSize_getBucketOfTime (s : LeapArray V) (now : Nat)
    (builder : BucketBuilder V) :
    (s.getBucketOfTime now builder).2.intervalSize = s.intervalSize := by
  rcases s.getBucketOfTime_snd now builder with h | ⟨b, h⟩ <;> rw [h]

@[simp] theorem n_getBucketOfTime (s : LeapArray V) (now : Nat) (builder : BucketBuilder V) :
    (s.getBucketOfTime now builder).2.n = s.n := by
  rcases s.getBucketOfTime_snd now builder with h | ⟨b, h⟩ <;> rw [h]

@[simp] theorem bucketSize_run (s : LeapArray V) (builder : BucketBuilder V) :
    ∀ times, (s.run builder times).2.bucketSize = s.bucketSize
  | [] => rfl
  | now :: times => by rw [run, bucketSize_run, bucketSize_getBucketOfTime]

@[simp] theorem n_run (s : LeapArray V) (builder : BucketBuilder V) :
    ∀ times, (s.run builder times).2.n = s.n
  | [] => rfl
  | now :: times => by rw [run, n_run, n_getBucketOfTime]

@[simp] theorem intervalSize_run (s : LeapArray V) (builder : BucketBuilder V) :
    ∀ times, (s.run builder times).2.intervalSize = s.intervalSize
  | [] => rfl
  | now :: times => by rw [run, intervalSize_run, intervalSize_getBucketOfTime]

/-- The invariant of a ring that is used from time `L` on: the parameters `NewLeapArray` sets,
and in every slot a `uint64` start that is a whole number of buckets, in the slot's residue
class, and less than a turn of the ring after the bucket of `L`. -/
structure Aligned (s : LeapArray V) (L : Nat) : Prop where
  bucketSize_pos : 0 < s.bucketSize
  n_pos : 0 < s.n
  length_eq : s.array.length = s.n
  intervalSize_eq : s.intervalSize = s.n * s.bucketSize
  slot : ∀ j < s.n, ∃ b, s.array.getBucket j = some b ∧ b.Start < 2 ^ 64 ∧
    b.Start % s.bucketSize = 0 ∧ b.Start / s.bucketSize % s.n = j ∧
    b.Start / s.bucketSize < L / s.bucketSize + s.n

variable {s : LeapArray V} {L : Nat}

theorem Aligned.mono (h : s.Aligned L) {L' : Nat} (hL : L ≤ L') : s.Aligned L' := by
  refine ⟨h.bucketSize_pos, h.n_pos, h.length_eq, h.intervalSize_eq, fun j hj => ?_⟩
  obtain ⟨b, hb, hlt, hmod, hres, hbound⟩ := h.slot j hj
  have := Nat.div_le_div_right (c := s.bucketSize) hL
  exact ⟨b, hb, hlt, hmod, hres, by omega⟩

/-- A new ring is aligned from its construction time on, as long as its start times do not wrap
past `2 ^ 64`. -/
theorem aligned_new (builder : BucketBuilder V) {n bucketSize intervalSize T0 : Nat}
    (hn : 0 < n) (hbs : 0 < bucketSize) (hint : intervalSize = n * bucketSize)
    (hT0 : T0 + intervalSize ≤ 2 ^ 64) :
    (⟨bucketSize, intervalSize, n, NewAtomicArrayWithTime n bucketSize T0 builder⟩ :
      LeapArray V).Aligned T0 := by
  refine ⟨hbs, hn, rfl, hint, fun j hj => ?_⟩
  dsimp only at hj ⊢
  set q := T0 / bucketSize with hq
  set index := q % n with hindex
  set d := (j + n - index) % n with hd
  have hidx : index < n := Nat.mod_lt _ hn
  have hdn : d < n := Nat.mod_lt _ hn
  have hpos : 0 < intervalSize := hint ▸ Nat.mul_pos hn hbs
  have hq_le : q * bucketSize ≤ T0 := Nat.div_mul_le_self _ _
  have hd_le : (d + 1) * bucketSize ≤ n * bucketSize := Nat.mul_le_mul_right _ hdn
  have hstart : (calculateStartTime T0 bucketSize + d * bucketSize) % 2 ^ 64 =
      (q + d) * bucketSize := by
    rw [calculateStartTime_eq, ← hq, Nat.add_mul, Nat.mod_eq_of_lt]
    rw [Nat.succ_mul] at hd_le
    omega
  have hres : (q + d) % n = j := by
    rw [Nat.add_mod, hd, Nat.mod_mod, ← hindex, Nat.add_mod_mod,
      show index + (j + n - index) = j + n by omega, Nat.add_mod_right, Nat.mod_eq_of_lt hj]
  refine ⟨_, getBucket_NewAtomicArrayWithTime builder hn (by omega) hj, ?_⟩
  rw [← hq, ← hindex, ← hd, hstart, Nat.mul_div_cancel _ hbs]
  refine ⟨by rw [← hstart]; exact Nat.mod_lt _ (by omega), Nat.mul_mod_left _ _, hres, by omega⟩

/-- One call at a time not before `L` succeeds and returns the bucket of `now`, and leaves the
ring aligned from `now` on: the slot of `now` holds a bucket that started no later, so it is
returned or replaced. -/
theorem Aligned.getBucketOfTime (h : s.Aligned L) (builder : BucketBuilder V)
    (hreset : ∀ b t, (builder.Reset b t).Start = t) {now : Nat} (hL : L ≤ now)
    (hnow : now < 2 ^ 64) :
    ∃ b, (s.getBucketOfTime now builder).1 = .ok b ∧
      b.Start = calculateStartTime now s.bucketSize ∧ (s.getBucketOfTime now builder).2.Aligned now := by
  have hbs := h.bucketSize_pos
  have hn := h.n_pos
  set j := s.getTimeIndex now with hj_def
  have hj : j < s.n := by
    rw [hj_def, getTimeIndex, h.length_eq]
    exact Nat.mod_lt _ hn
  obtain ⟨old, hget, -, hmod, hres, hbound⟩ := h.slot j hj
  have hstart := calculateStartTime_eq now s.bucketSize
  -- the old bucket's id is in `now`'s residue class and below a turn after `L`'s, so not after `now`'s
  have hold : old.Start / s.bucketSize ≤ now / s.bucketSize := by
    refine le_of_mod_eq ?_ (Nat.div_le_div_right hL) hbound
    rw [hres, hj_def, getTimeIndex, h.length_eq]
  have hold_eq : old.Start = old.Start / s.bucketSize * s.bucketSize := by
    have := Nat.div_add_mod old.Start s.bucketSize
    rw [hmod, Nat.mul_comm] at this
    omega
  have hle : old.Start ≤ calculateStartTime now s.bucketSize := by
    rw [hstart, hold_eq]
    exact Nat.mul_le_mul_right _ hold
  unfold LeapArray.getBucketOfTime
  dsimp only
  rw [← hj_def, hget]
  dsimp only
  by_cases heq : calculateStartTime now s.bucketSize = old.Start
  case pos =>
    rw [if_pos heq]
    exact ⟨old, rfl, heq.symm, h.mono hL⟩
  case neg =>
    rw [if_neg heq, if_pos (by omega)]
    refine ⟨_, rfl, hreset _ _, ⟨hbs, hn, ?_, h.intervalSize_eq, fun k hk => ?_⟩⟩
    · rw [AtomicArray.length_compareAndSwap, h.length_eq]
    · dsimp only
      rw [AtomicArray.getBucket_compareAndSwap _ (by rw [h.length_eq]; exact hn), h.length_eq]
      by_cases hkj : j % s.n = k % s.n
      case pos =>
        rw [if_pos hkj]
        have hk_eq : k = j := by rw [Nat.mod_eq_of_lt hk, Nat.mod_eq_of_lt hj] at hkj; exact hkj.symm
        refine ⟨_, rfl, ?_⟩
        rw [hreset, hstart, Nat.mul_div_cancel _ hbs, Nat.mul_mod_left, hk_eq, hj_def, getTimeIndex,
          h.length_eq]
        have := Nat.div_mul_le_self now s.bucketSize
        exact ⟨by omega, rfl, rfl, by omega⟩
      case neg =>
        rw [if_neg hkj]
        exact (h.mono hL).slot k hk

/-- Read at a time not before `L`, a bucket of the ring is disabled exactly when it does not
start in the last `intervalSize` milliseconds: one that starts later than `now` starts less than
a window later, and so is far in the past to the `uint64` difference, as long as a window is at
most half the range. -/
theorem Aligned.isDisable_eq (h : s.Aligned L) {now : Nat} (hL : L ≤ now) (hnow : now < 2 ^ 64)
    (hhalf : s.intervalSize ≤ 2 ^ 63) {j : Nat} (hj : j < s.n) {b : Bucket V}
    (hb : s.array.getBucket j = some b) :
    s.isDisable now b = !decide (b.Start ≤ now ∧ now ≤ b.Start + s.intervalSize) := by
  obtain ⟨b', hb', hlt, hmod, -, hbound⟩ := h.slot j hj
  have hbb : b' = b := Option.some.inj (hb'.symm.trans hb)
  rw [hbb] at hlt hmod hbound
  have hwindow : b.Start < L + s.intervalSize := by
    have hbs := h.bucketSize_pos
    have hsplit := Nat.div_add_mod b.Start s.bucketSize
    have hL' := Nat.div_mul_le_self L s.bucketSize
    have : (b.Start / s.bucketSize + 1) * s.bucketSize ≤ (L / s.bucketSize + s.n) * s.bucketSize :=
      Nat.mul_le_mul_right _ hbound
    rw [Nat.succ_mul, Nat.add_mul] at this
    rw [hmod, Nat.mul_comm] at hsplit
    rw [h.intervalSize_eq]
    omega
  rw [isDisable]
  by_cases hin : b.Start ≤ now ∧ now ≤ b.Start + s.intervalSize
  · rw [decide_eq_true hin]
    simp only [Bool.not_true, decide_eq_false_iff_not, gt_iff_lt, Nat.not_lt]
    omega
  · rw [decide_eq_false hin]
    simp only [Bool.not_false, decide_eq_true_eq, gt_iff_lt]
    omega

/-- `getValueOfTime` at a time not before `L` returns, slot by slot, the buckets of the last
window. -/
theorem Aligned.getValueOfTime (h : s.Aligned L) {now : Nat} (hL : L ≤ now) (hnow : now < 2 ^ 64)
    (hhalf : s.intervalSize ≤ 2 ^ 63) :
    s.getValueOfTime now = (List.range s.n).filterMap fun j =>
      (s.array.getBucket j).filter fun b => decide (b.Start ≤ now ∧ now ≤ b.Start + s.intervalSize) := by
  rw [LeapArray.getValueOfTime, h.length_eq]
  refine List.filterMap_congr fun j hj => ?_
  obtain ⟨b, hb, -⟩ := h.slot j (List.mem_range.mp hj)
  rw [hb, Option.filter_some, Option.filter_some, h.isDisable_eq hL hnow hhalf (List.mem_range.mp hj) hb,
    Bool.not_not]

/-- `ValuesChick` at a time not before `L` returns the buckets of the last window that pass
`chick`. -/
theorem Aligned.ValuesChick (h : s.Aligned L) {now : Nat} (hL : L ≤ now) (hnow : now < 2 ^ 64)
    (hhalf : s.intervalSize ≤ 2 ^ 63) (chick : Nat → Bool) :
    s.ValuesChick now chick = (List.range s.n).filterMap fun j =>
      (s.array.getBucket j).filter fun b =>
        decide (b.Start ≤ now ∧ now ≤ b.Start + s.intervalSize) && chick b.Start := by
  rw [LeapArray.ValuesChick, h.length_eq]
  refine List.filterMap_congr fun j hj => ?_
  obtain ⟨b, hb, -⟩ := h.slot j (List.mem_range.mp hj)
  rw [hb, Option.filter_some, Option.filter_some, h.isDisable_eq hL hnow hhalf (List.mem_range.mp hj) hb,
    Bool.not_not]

section Run

variable (builder : BucketBuilder V) (hreset : ∀ b t, (builder.Reset b t).Start = t)
include hreset

/-- Calls at times in order, none before `L`, each return the bucket of their time. -/
theorem Aligned.run_results (h : s.Aligned L) {times : List Nat}
    (hsorted : (L :: times).Pairwise (· ≤ ·)) (hlt : ∀ t ∈ times, t < 2 ^ 64) :
    (s.run builder times).1.map (Except.map Bucket.Start) =
      times.map fun now => .ok (calculateStartTime now s.bucketSize) := by
  induction times generalizing s L with
  | nil => rfl
  | cons now times ih =>
    obtain ⟨hL, hsorted'⟩ := List.pairwise_cons.mp hsorted
    obtain ⟨b, hb, hstart, h'⟩ := h.getBucketOfTime builder hreset (hL now List.mem_cons_self)
      (hlt now List.mem_cons_self)
    have hrest := ih h' hsorted' fun t ht => hlt t (List.mem_cons_of_mem now ht)
    rw [bucketSize_getBucketOfTime] at hrest
    simp only [run, List.map_cons, hb, hrest, Except.map, hstart]

/-- After every prefix of the calls, the ring is aligned from every time not before any of
them. -/
theorem Aligned.run_take (h : s.Aligned L) {times : List Nat}
    (hsorted : (L :: times).Pairwise (· ≤ ·)) (hlt : ∀ t ∈ times, t < 2 ^ 64) :
    ∀ k L', L ≤ L' → (∀ t ∈ times.take k, t ≤ L') → (s.run builder (times.take k)).2.Aligned L' := by
  induction times generalizing s L with
  | nil =>
    intro k L' hL' _
    rw [List.take_nil]
    exact h.mono hL'
  | cons now times ih =>
    obtain ⟨hL, hsorted'⟩ := List.pairwise_cons.mp hsorted
    intro k L' hL' hafter
    cases k with
    | zero =>
      rw [List.take_zero]
      exact h.mono hL'
    | succ k =>
      obtain ⟨b, -, -, h'⟩ := h.getBucketOfTime builder hreset (hL now List.mem_cons_self)
        (hlt now List.mem_cons_self)
      rw [List.take_succ_cons] at hafter ⊢
      exact ih h' hsorted' (fun t ht => hlt t (List.mem_cons_of_mem now ht)) k L'
        (hafter now List.mem_cons_self) fun t ht => hafter t (List.mem_cons_of_mem now ht)

end Run

end LeapArray

/-! ### `NewLeapArray` -/

/-- `NewLeapArray` builds a ring exactly when `n` and `intervalSize` are positive and `n`
divides `intervalSize`. -/
theorem NewLeapArray_ok (builder : BucketBuilder V) {n intervalSize : Nat} (hn : 0 < n)
    (hpos : 0 < intervalSize) (hdiv : intervalSize % n = 0) (now : Nat) :
    NewLeapArray n intervalSize (some builder) now =
      .ok ⟨intervalSize / n, intervalSize, n, NewAtomicArrayWithTime n (intervalSize / n) now builder⟩ := by
  rw [NewLeapArray]
  dsimp only
  rw [if_neg (by omega), if_neg (by omega)]

theorem NewLeapArray_error (builder : Option (BucketBuilder V)) (n intervalSize now : Nat) :
    (∃ e, NewLeapArray n intervalSize builder now = .error e) ↔
      builder = none ∨ n = 0 ∨ intervalSize = 0 ∨ intervalSize % n ≠ 0 := by
  cases builder with
  | none => simp [NewLeapArray]
  | some builder =>
    simp only [NewLeapArray, reduceCtorEq, false_or]
    split_ifs with h1 h2
    · exact iff_of_true ⟨_, rfl⟩ (by omega)
    · exact iff_of_true ⟨_, rfl⟩ (by omega)
    · exact iff_of_false (fun ⟨_, h⟩ => by cases h) (by omega)

/-- The bucket of `now` is hit by `now`, except the last bucket of the `uint64` range, whose end
wraps to a small number. -/
theorem isHit_calculateStartTime (v : V) {now bucketSize : Nat} (hbs : 0 < bucketSize)
    (hbs' : bucketSize < 2 ^ 64) (hnow : now < 2 ^ 64) :
    (⟨calculateStartTime now bucketSize, v⟩ : Bucket V).isHit now bucketSize =
      decide (calculateStartTime now bucketSize + bucketSize < 2 ^ 64) := by
  have hmod := Nat.mod_lt now hbs
  have hle := Nat.mod_le now bucketSize
  rw [Bucket.isHit, calculateStartTime]
  by_cases hwrap : now - now % bucketSize + bucketSize < 2 ^ 64
  · rw [decide_eq_true hwrap, Nat.mod_eq_of_lt hwrap]
    simp only [Bool.and_eq_true, decide_eq_true_eq]
    omega
  · rw [decide_eq_false hwrap]
    simp only [Bool.and_eq_false_iff, decide_eq_false_iff_not, Nat.not_lt]
    right
    omega

theorem leapArray_aligned_run (builder : BucketBuilder V) (hreset : ∀ b t, (builder.Reset b t).Start = t)
    {n intervalSize T0 : Nat} (hn : 0 < n) (hpos : 0 < intervalSize) (hdiv : intervalSize % n = 0)
    (hT0 : T0 + intervalSize ≤ 2 ^ 64) (hhalf : intervalSize ≤ 2 ^ 63) {times : List Nat}
    (hsorted : (T0 :: times).Pairwise (· ≤ ·)) (hlt : ∀ t ∈ times, t < 2 ^ 64) :
    ∃ s, NewLeapArray n intervalSize (some builder) T0 = .ok s ∧
      (s.run builder times).1.map (Except.map Bucket.Start) =
        times.map (fun now => .ok (calculateStartTime now (intervalSize / n))) ∧
      ∀ k, (∀ j < n, ∃ b, (s.run builder (times.take k)).2.array.getBucket j = some b ∧
          b.Start % (intervalSize / n) = 0 ∧ b.Start / (intervalSize / n) % n = j) ∧
        ∀ now, T0 ≤ now → (∀ t ∈ times.take k, t ≤ now) → now < 2 ^ 64 →
          (s.run builder (times.take k)).2.getValueOfTime now = (List.range n).filterMap (fun j =>
            ((s.run builder (times.take k)).2.array.getBucket j).filter fun b =>
              decide (b.Start ≤ now ∧ now ≤ b.Start + intervalSize)) ∧
          ∀ chick, (s.run builder (times.take k)).2.ValuesChick now chick =
            (List.range n).filterMap (fun j =>
              ((s.run builder (times.take k)).2.array.getBucket j).filter fun b =>
                decide (b.Start ≤ now ∧ now ≤ b.Start + intervalSize) && chick b.Start) := by
  have hdvd : n ∣ intervalSize := Nat.dvd_of_mod_eq_zero hdiv
  have hbs : 0 < intervalSize / n := Nat.div_pos (Nat.le_of_dvd hpos hdvd) hn
  set s0 : LeapArray V := ⟨intervalSize / n, intervalSize, n,
    NewAtomicArrayWithTime n (intervalSize / n) T0 builder⟩ with hs0
  have h0 : s0.Aligned T0 := LeapArray.aligned_new builder hn hbs (Nat.mul_div_cancel' hdvd).symm hT0
  refine ⟨_, NewLeapArray_ok builder hn hpos hdiv T0, h0.run_results builder hreset hsorted hlt,
    fun k => ⟨fun j hj => ?_, fun now hT0now hafter hnow => ?_⟩⟩
  case refine_1 =>
    have hk := h0.run_take builder hreset hsorted hlt k (T0 + (times.take k).sum) (Nat.le_add_right _ _)
      fun t ht => Nat.le_add_left_of_le (List.le_sum_of_mem ht)
    obtain ⟨b, hb, -, hmod, hres, -⟩ := hk.slot j (by rw [LeapArray.n_run]; exact hj)
    simp only [LeapArray.bucketSize_run, LeapArray.n_run] at hmod hres
    exact ⟨b, hb, hmod, hres⟩
  case refine_2 =>
    have hk := h0.run_take builder hreset hsorted hlt k now hT0now hafter
    have hhalf' : (s0.run builder (times.take k)).2.intervalSize ≤ 2 ^ 63 := by
      rw [LeapArray.intervalSize_run]
      exact hhalf
    refine ⟨?_, fun chick => ?_⟩
    · rw [hk.getValueOfTime le_rfl hnow hhalf', LeapArray.n_run, LeapArray.intervalSize_run]
    · rw [hk.ValuesChick le_rfl hnow hhalf' chick, LeapArray.n_run, LeapArray.intervalSize_run]

theorem leapArray_aligned_run_two :
    ∃ s, NewLeapArray 2 2 (some (resetBuilder ())) 0 = .ok s ∧
      (s.run (resetBuilder ()) [1, 2, 5]).1.map (Except.map Bucket.Start) =
        [1, 2, 5].map (fun now => .ok (calculateStartTime now (2 / 2))) ∧
      ∀ k, (∀ j < 2, ∃ b, (s.run (resetBuilder ()) ([1, 2, 5].take k)).2.array.getBucket j = some b ∧
          b.Start % (2 / 2) = 0 ∧ b.Start / (2 / 2) % 2 = j) ∧
        ∀ now, 0 ≤ now → (∀ t ∈ [1, 2, 5].take k, t ≤ now) → now < 2 ^ 64 →
          (s.run (resetBuilder ()) ([1, 2, 5].take k)).2.getValueOfTime now =
            (List.range 2).filterMap (fun j =>
              ((s.run (resetBuilder ()) ([1, 2, 5].take k)).2.array.getBucket j).filter fun b =>
                decide (b.Start ≤ now ∧ now ≤ b.Start + 2)) ∧
          ∀ chick, (s.run (resetBuilder ()) ([1, 2, 5].take k)).2.ValuesChick now chick =
            (List.range 2).filterMap (fun j =>
              ((s.run (resetBuilder ()) ([1, 2, 5].take k)).2.array.getBucket j).filter fun b =>
                decide (b.Start ≤ now ∧ now ≤ b.Start + 2) && chick b.Start) :=
  leapArray_aligned_run (resetBuilder ()) (fun _ _ => rfl) (by decide) (by decide) (by decide)
    (by decide) (by decide) (by decide) (by decide)

/-- Three rings the claim's conditions allow that break it: start times that wrap past `2 ^ 64`
(slot 0 of a ring built at `2 ^ 64 - 1` with buckets of 3 starts at 2, not a multiple of 3), a
window over half the range (a bucket that starts after `now` is read at `now`), and an empty
window (no ring is built). -/
theorem leapArray_wrap_breaks_alignment :
    ((NewLeapArray 2 6 (some (resetBuilder ())) (2 ^ 64 - 1)).toOption.bind fun s =>
        (s.array.getBucket 0).map Bucket.Start) = some 2 ∧
      ((NewLeapArray 2 (2 ^ 64 - 2) (some (resetBuilder ())) 0).toOption.map fun s =>
        (s.getValueOfTime 0).map Bucket.Start) = some [0, 2 ^ 63 - 1] ∧
      (NewLeapArray 1 0 (some (resetBuilder ())) 0).toOption.isNone = true := by
  decide

end Gkit.Window
