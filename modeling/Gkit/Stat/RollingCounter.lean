import Gkit.Stat.Refinement
import Mathlib

/-!
The reducers of `internal/stat/reduce.go` and the rolling counter of `rolling_counter.go`. A
reducer walks the iterator that `Reduce` hands it, bucket by bucket and point by point, with an
accumulator; the counter is a `RollingPolicy` whose `Add` refuses a negative value. Over the
timestamped model of the refinement, the counter's `Sum` is the total of the values added in
the window, and `Count` the number of those calls.
-/

namespace Gkit.Stat

variable {α : Type}

/-! ### The reducers -/

/-- The buckets that the loop `for iterator.Next() { bucket := iterator.Bucket() ... }` of a
reducer reads: `Next` holds for `count - iteratedCount` rounds. -/
def Iterator.buckets (i : Iterator α) : List (Gkit.Stat.Bucket α) := i.visit (i.count - i.iteratedCount)

def Sum [Zero α] [Add α] (iterator : Iterator α) : α :=
  iterator.buckets.foldl (fun result b => b.Points.foldl (· + ·) result) 0

/-- `Avg`: the sum over the number of points, both accumulated as point values. -/
def Avg [Zero α] [One α] [Add α] [Div α] (iterator : Iterator α) : α :=
  let r := iterator.buckets.foldl
    (fun acc b => b.Points.foldl (fun (acc : α × α) p => (acc.1 + p, acc.2 + 1)) acc) (0, 0)
  r.1 / r.2

/-- The loop body shared by `Min` and `Max`: the first point starts the result, and a later
one replaces it when it is `better`. -/
def extremum (better : α → α → Bool) (acc : α × Bool) (p : α) : α × Bool :=
  if !acc.2 then (p, true) else if better p acc.1 then (p, true) else acc

/-- `Min`; zero when there is no point. -/
def Min [Zero α] [LT α] [DecidableRel (α := α) (· < ·)] (iterator : Iterator α) : α :=
  (iterator.buckets.foldl (fun acc b => b.Points.foldl (extremum fun p r => p < r) acc)
    (0, false)).1

/-- `Max`; zero when there is no point. -/
def Max [Zero α] [LT α] [DecidableRel (α := α) (· < ·)] (iterator : Iterator α) : α :=
  (iterator.buckets.foldl (fun acc b => b.Points.foldl (extremum fun p r => p > r) acc)
    (0, false)).1

/-- `Count`: the buckets' counts summed (an `int64` in the source, which the number of calls
never overflows) and returned as a point value. -/
def Count [NatCast α] (iterator : Iterator α) : α :=
  ((iterator.buckets.foldl (fun result b => result + b.Count) 0 : Nat) : α)

/-! ### The counter -/

/-- `rollingCounter`. -/
structure RollingCounter (α : Type) where
  policy : RollingPolicy α

namespace RollingCounter

def Reduce [Zero α] (r : RollingCounter α) (now : Int) (f : Iterator α → α) : α :=
  r.policy.Reduce now f

def Sum [Zero α] [Add α] (r : RollingCounter α) (now : Int) : α := r.Reduce now Gkit.Stat.Sum

def Avg [Zero α] [One α] [Add α] [Div α] (r : RollingCounter α) (now : Int) : α :=
  r.Reduce now Gkit.Stat.Avg

def Min [Zero α] [LT α] [DecidableRel (α := α) (· < ·)] (r : RollingCounter α) (now : Int) : α :=
  r.Reduce now Gkit.Stat.Min

def Max [Zero α] [LT α] [DecidableRel (α := α) (· < ·)] (r : RollingCounter α) (now : Int) : α :=
  r.Reduce now Gkit.Stat.Max

/-- `Add(val)`: a negative value panics; the value is converted to a point. -/
def Add [Add α] [IntCast α] (r : RollingCounter α) (val : Int) (now : Int) :
    Except String (RollingCounter α) :=
  if val < 0 then .error s!"stat/metric: cannot decrease in value. val: {val}"
  else .ok ⟨r.policy.Add (val : α) now⟩

end RollingCounter

/-- Calls of `Add` on a counter in order, each with its value and the time it is made; the
first panic ends the run. -/
def addCalls [Add α] [IntCast α] (r : RollingCounter α) (calls : List (Int × Int)) :
    Except String (RollingCounter α) :=
  calls.foldlM (fun r c => r.Add c.2 c.1) r

/-- `NewRollingCounter(size, bucketDuration)`, created at `now`. -/
def NewRollingCounter (size : Nat) (bucketDuration now : Int) : RollingCounter α :=
  ⟨NewRollingPolicy (NewWindow size) bucketDuration now⟩

/-! ### What a bucket holds -/

/-- The value a call writes. -/
def Call.val : Call α → α
  | .add val => val
  | .append val => val

theorem count_write [Add α] (c : Call α) (b : Bucket α) : (c.write b).Count = b.Count + 1 := by
  cases c with
  | append val => rfl
  | add val =>
    simp only [Call.write, addOrAppend]
    split_ifs <;> rfl

theorem count_foldl_write [Add α] (cs : List (Call α)) (b : Bucket α) :
    (cs.foldl (fun b c => c.write b) b).Count = b.Count + cs.length := by
  induction cs generalizing b with
  | nil => rfl
  | cons c cs ih =>
    rw [List.foldl_cons, ih, count_write, List.length_cons]
    omega

/-- The bucket of an interval counts its calls, whatever their values. -/
theorem count_intervalBucket [Add α] (start d : Int) (calls : List (Int × Call α)) (j : Int) :
    (intervalBucket start d calls j).Count = (calls.filter fun c => interval start d c.1 = j).length := by
  rw [intervalBucket, count_foldl_write, List.length_map]
  exact Nat.zero_add _

section Buckets

variable [AddCommMonoid α]

/-- A call adds its value to the sum of a bucket's points, whether it appends a point or adds
to the first. -/
theorem sum_points_write (c : Call α) (b : Bucket α) :
    (c.write b).Points.sum = b.Points.sum + c.val := by
  cases c with
  | append val => simp [Call.write, Call.val, Bucket.Append]
  | add val =>
    simp only [Call.write, Call.val, addOrAppend]
    split_ifs with h0
    · simp [Bucket.Append]
    · obtain ⟨p, ps, hps⟩ := List.exists_cons_of_length_pos (Bucket.points_ne_nil h0)
      simp only [Bucket.Add, hps, List.set_cons_zero, List.sum_cons, List.getElem_cons_zero]
      rw [add_right_comm]

/-- The bucket of an interval holds the total of its calls' values, and counts them. -/
theorem intervalBucket_sum_count (start d : Int) (calls : List (Int × Call α)) (j : Int) :
    (intervalBucket start d calls j).Points.sum =
        (((calls.filter fun c => interval start d c.1 = j).map Prod.snd).map Call.val).sum ∧
      (intervalBucket start d calls j).Count =
        ((calls.filter fun c => interval start d c.1 = j).map Prod.snd).length := by
  unfold intervalBucket
  generalize ((calls.filter fun c => interval start d c.1 = j).map Prod.snd) = cs
  suffices h : ∀ b : Bucket α, (cs.foldl (fun b c => c.write b) b).Points.sum =
      b.Points.sum + (cs.map Call.val).sum ∧
      (cs.foldl (fun b c => c.write b) b).Count = b.Count + cs.length by
    simpa [Bucket.empty] using h .empty
  induction cs with
  | nil => intro b; simp
  | cons c cs ih =>
    intro b
    obtain ⟨hs, hc⟩ := ih (c.write b)
    rw [List.foldl_cons, hs, hc, sum_points_write, count_write, List.map_cons, List.sum_cons,
      List.length_cons, add_assoc]
    exact ⟨rfl, by omega⟩

end Buckets

theorem sum_map_ite_eq {β : Type} [AddCommMonoid β] (a : Int) (x : β) {js : List Int}
    (hjs : js.Nodup) : (js.map fun j => if a = j then x else 0).sum = if a ∈ js then x else 0 := by
  induction js with
  | nil => simp
  | cons j js ih =>
    obtain ⟨hj, hjs'⟩ := List.nodup_cons.mp hjs
    rw [List.map_cons, List.sum_cons, ih hjs']
    by_cases haj : a = j
    · subst haj
      simp [hj]
    · simp [haj]

/-- Summing over distinct keys the totals of the entries with each key is the total of the
entries whose key is among them. -/
theorem sum_map_sum_filter {β γ : Type} [AddCommMonoid β] (f : γ → Int) (v : γ → β)
    {js : List Int} (hjs : js.Nodup) (l : List γ) :
    (js.map fun j => ((l.filter fun c => f c = j).map v).sum).sum =
      ((l.filter fun c => f c ∈ js).map v).sum := by
  induction l with
  | nil => simp
  | cons c l ih =>
    have hsplit : (js.map fun j => ((List.filter (fun c' => f c' = j) (c :: l)).map v).sum) =
        js.map fun j => (if f c = j then v c else 0) + ((l.filter fun c' => f c' = j).map v).sum := by
      apply List.map_congr_left
      intro j _
      by_cases hcj : f c = j <;> simp [hcj]
    rw [hsplit, List.sum_map_add, sum_map_ite_eq (f c) (v c) hjs, ih]
    by_cases hc : f c ∈ js <;> simp [hc]

/-! ### Sum and Count over the window -/

/-- The calls a counter's run makes on its policy. -/
def counterCalls [IntCast α] (calls : List (Int × Int)) : List (Int × Call α) :=
  calls.map fun c => (c.1, .add (c.2 : α))

@[simp] theorem map_fst_counterCalls [IntCast α] (calls : List (Int × Int)) :
    (counterCalls calls : List (Int × Call α)).map Prod.fst = calls.map Prod.fst := by
  simp [counterCalls]

@[simp] theorem length_counterCalls [IntCast α] (calls : List (Int × Int)) :
    (counterCalls calls : List (Int × Call α)).length = calls.length :=
  List.length_map ..

theorem addCalls_ok [Add α] [IntCast α] (r : RollingCounter α) {calls : List (Int × Int)}
    (hval : ∀ c ∈ calls, 0 ≤ c.2) :
    addCalls r calls = .ok ⟨runCalls r.policy (counterCalls calls)⟩ := by
  induction calls generalizing r with
  | nil => rfl
  | cons c calls ih =>
    have hc : ¬ c.2 < 0 := Int.not_lt.mpr (hval c List.mem_cons_self)
    rw [addCalls, List.foldlM_cons]
    simp only [RollingCounter.Add, hc, ↓reduceIte]
    exact ih _ fun c' hc' => hval c' (List.mem_cons_of_mem c hc')

theorem sum_ofBuckets [AddMonoid α] (bs : List (Bucket α)) :
    Sum (Iterator.ofBuckets bs) = (bs.map fun b => b.Points.sum).sum := by
  have hbuckets : (Iterator.ofBuckets bs).buckets = bs := visit_ofBuckets bs
  rw [Sum, hbuckets]
  clear hbuckets
  suffices h : ∀ acc : α, bs.foldl (fun result b => b.Points.foldl (· + ·) result) acc =
      acc + (bs.map fun b => b.Points.sum).sum by
    rw [h, zero_add]
  induction bs with
  | nil => intro acc; simp
  | cons b bs ih =>
    intro acc
    rw [List.foldl_cons, ih, List.foldl_eq_apply_foldr, List.map_cons, List.sum_cons, add_assoc]
    rfl

theorem count_ofBuckets [NatCast α] (bs : List (Bucket α)) :
    Count (Iterator.ofBuckets bs) = (((bs.map Bucket.Count).sum : Nat) : α) := by
  have hbuckets : (Iterator.ofBuckets bs).buckets = bs := visit_ofBuckets bs
  rw [Count, hbuckets, List.sum_eq_foldl, List.foldl_map]

section Window

variable [Add α] {start d : Int} {n : Nat} {calls : List (Int × Call α)} {now : Int}

/-- Summing, over the buckets of the window, a quantity that each call adds to its bucket counts
once every call of the last `n` intervals. -/
theorem sum_windowBuckets {β : Type} [AddCommMonoid β] (g : Bucket α → β) (v : Call α → β)
    (hg : ∀ j, g (intervalBucket start d calls j) =
      (((calls.filter fun c => interval start d c.1 = j).map Prod.snd).map v).sum)
    (hle : ∀ c ∈ calls, interval start d c.1 ≤ lastInterval start d calls)
    (hnow : lastInterval start d calls ≤ interval start d now)
    (hspan : interval start d now - lastInterval start d calls < n) :
    ((windowBuckets start d n calls now).map g).sum =
      (((calls.filter fun c => interval start d now - n < interval start d c.1).map
        Prod.snd).map v).sum := by
  set js : List Int := (List.range (n - (interval start d now - lastInterval start d calls).toNat)).map
    fun i : Nat => interval start d now - n + 1 + (i : Int) with hjs
  have hnodup : js.Nodup := List.nodup_range.map fun i k h => by simpa using h
  have hmem : ∀ c ∈ calls, (interval start d c.1 ∈ js ↔
      interval start d now - n < interval start d c.1) := by
    intro c hc
    have := hle c hc
    simp only [hjs, List.mem_map, List.mem_range]
    constructor
    · rintro ⟨i, _, hi⟩
      omega
    · intro hlt
      refine ⟨(interval start d c.1 - (interval start d now - n + 1)).toNat, ?_, ?_⟩
      · omega
      · omega
  have hbuckets : (windowBuckets start d n calls now).map g =
      js.map fun j => ((calls.filter fun c => interval start d c.1 = j).map (v ∘ Prod.snd)).sum := by
    simp only [windowBuckets, hjs, List.map_map]
    apply List.map_congr_left
    intro i _
    simp only [Function.comp_apply, hg, List.map_map]
  rw [hbuckets, sum_map_sum_filter (fun c => interval start d c.1) (v ∘ Prod.snd) hnodup,
    List.map_map, List.filter_congr fun c hc => by rw [decide_eq_decide.mpr (hmem c hc)]]

end Window

section Run

variable [IntCast α] {n : Nat} {d : Int}

theorem filter_counterCalls (start : Int) (calls : List (Int × Int)) (P : Int → Bool) :
    ((counterCalls calls : List (Int × Call α)).filter fun c => P (interval start d c.1)) =
      counterCalls (calls.filter fun c => P (interval start d c.1)) := by
  simp [counterCalls, List.filter_map, Function.comp_def]

/-- A run of `Add` calls in time order, from the counter's creation, leaves it reducing as the
timestamped model does, with every call in an interval up to the last call's and that one no
later than now's. -/
theorem addCalls_reduce [Add α] (hn : 0 < n) (hd : 0 < d) (start now : Int) (calls : List (Int × Int))
    (hval : ∀ c ∈ calls, 0 ≤ c.2) (htime : (start :: (calls.map Prod.fst ++ [now])).Pairwise (· ≤ ·)) :
    ∃ r, addCalls (NewRollingCounter n d start) calls = .ok r ∧
      (∀ c ∈ (counterCalls calls : List (Int × Call α)),
        interval start d c.1 ≤ lastInterval start d (counterCalls calls : List (Int × Call α))) ∧
      lastInterval start d (counterCalls calls : List (Int × Call α)) ≤ interval start d now ∧
      ∀ [Zero α] (f : Iterator α → α),
        r.Reduce now f = reduceSpec start d n (counterCalls calls) now f := by
  rw [List.pairwise_cons, List.pairwise_append] at htime
  obtain ⟨hstart, hpre, -, hnow⟩ := htime
  have htime' : (start :: (counterCalls calls : List (Int × Call α)).map Prod.fst).Pairwise (· ≤ ·) := by
    rw [map_fst_counterCalls]
    exact List.pairwise_cons.mpr ⟨fun t ht => hstart t (List.mem_append_left _ ht), hpre⟩
  have hrep := represents_run hn hd start (counterCalls calls : List (Int × Call α)) htime'
  have hlast : lastInterval start d (counterCalls calls : List (Int × Call α)) ≤ interval start d now :=
    lastInterval_le_of_le hd (hstart now (by simp)) fun c hc => by
      obtain ⟨c', hc', rfl⟩ := List.mem_map.mp hc
      exact hnow c'.1 (List.mem_map_of_mem hc') now (by simp)
  exact ⟨_, addCalls_ok _ hval, hrep.interval_le, hlast, fun f => hrep.reduce hd hlast f⟩

/-- When the last call is a whole window ago, no call is in the window. -/
theorem window_calls_eq_nil {start now : Int} {calls : List (Int × Int)}
    (hle : ∀ c ∈ (counterCalls calls : List (Int × Call α)),
      interval start d c.1 ≤ lastInterval start d (counterCalls calls : List (Int × Call α)))
    (hspan : ¬ interval start d now - lastInterval start d (counterCalls calls : List (Int × Call α)) < n) :
    calls.filter (fun c => interval start d now - n < interval start d c.1) = [] := by
  refine List.filter_eq_nil_iff.mpr fun c hc => ?_
  have hc' : interval start d c.1 ≤ lastInterval start d (counterCalls calls : List (Int × Call α)) :=
    hle (c.1, .add (c.2 : α)) (List.mem_map_of_mem hc)
  simp only [decide_eq_true_eq]
  omega

section Window

variable {start now : Int} {calls : List (Int × Int)}
  (hle : ∀ c ∈ (counterCalls calls : List (Int × Call α)),
    interval start d c.1 ≤ lastInterval start d (counterCalls calls : List (Int × Call α)))
  (hlast : lastInterval start d (counterCalls calls : List (Int × Call α)) ≤ interval start d now)
  (hspan : interval start d now - lastInterval start d (counterCalls calls : List (Int × Call α)) < n)
include hle hlast hspan

/-- The buckets of the window count the calls in it. -/
theorem count_windowBuckets [Add α] :
    ((windowBuckets start d n (counterCalls calls : List (Int × Call α)) now).map Bucket.Count).sum =
      (calls.filter fun c => interval start d now - n < interval start d c.1).length := by
  have hcount : ∀ j, (intervalBucket start d (counterCalls calls : List (Int × Call α)) j).Count =
      (((List.filter (fun c => interval start d c.1 = j)
        (counterCalls calls : List (Int × Call α))).map Prod.snd).map fun _ => 1).sum := by
    intro j
    rw [count_intervalBucket, List.map_const', List.sum_replicate, smul_eq_mul, mul_one,
      List.length_map]
  rw [sum_windowBuckets Bucket.Count (fun _ => 1) hcount hle hlast hspan,
    filter_counterCalls start calls fun x => decide (interval start d now - n < x), List.map_const',
    List.sum_replicate, smul_eq_mul, mul_one, List.length_map, length_counterCalls]

/-- The points of the window's buckets add up to the values of the calls in it. -/
theorem sum_windowBuckets_points [AddCommMonoid α] :
    ((windowBuckets start d n (counterCalls calls : List (Int × Call α)) now).map
        fun b => b.Points.sum).sum =
      ((calls.filter fun c => interval start d now - n < interval start d c.1).map
        fun c => (c.2 : α)).sum := by
  rw [sum_windowBuckets (fun b => b.Points.sum) Call.val
    (fun j => (intervalBucket_sum_count start d _ j).1) hle hlast hspan,
    filter_counterCalls start calls fun x => decide (interval start d now - n < x)]
  simp only [counterCalls, List.map_map]
  rfl

end Window

end Run

section Sum

variable [AddCommGroupWithOne α]

/-- A rolling counter sums what was added in its window. From its creation at `start`, after
every run of `Add` calls in time order with values that are not negative, at any later time
`Sum` is the total of the values of the calls in the last `size` intervals, and the `Count`
reducer the number of those calls. -/
theorem rollingCounter_sum_count {n : Nat} {d : Int} (hn : 0 < n) (hd : 0 < d) (start now : Int)
    (calls : List (Int × Int)) (hval : ∀ c ∈ calls, 0 ≤ c.2)
    (htime : (start :: (calls.map Prod.fst ++ [now])).Pairwise (· ≤ ·)) :
    ∃ r, addCalls (NewRollingCounter n d start) calls = .ok r ∧
      r.Sum now = ((calls.filter fun c => interval start d now - n < interval start d c.1).map
        fun c => (c.2 : α)).sum ∧
      r.Reduce now Count =
        ((calls.filter fun c => interval start d now - n < interval start d c.1).length : α) := by
  obtain ⟨r, hrun, hle, hlast, hreduce⟩ := addCalls_reduce (α := α) hn hd start now calls hval htime
  refine ⟨r, hrun, ?_⟩
  rw [RollingCounter.Sum, hreduce, hreduce, reduceSpec, reduceSpec]
  by_cases hspan : interval start d now - lastInterval start d
    (counterCalls calls : List (Int × Call α)) < n
  · rw [if_pos hspan, if_pos hspan, sum_ofBuckets, sum_windowBuckets_points hle hlast hspan,
      count_ofBuckets, count_windowBuckets hle hlast hspan]
    exact ⟨rfl, rfl⟩
  · rw [if_neg hspan, if_neg hspan, window_calls_eq_nil hle hspan, List.length_nil, Nat.cast_zero]
    exact ⟨rfl, rfl⟩

/-- `Add(1)` at 0, `Add(2)` at 3 and `Add(4)` at 7 on a counter of three buckets of two
nanoseconds. -/
def sampleCalls : List (Int × Int) := [(0, 1), (3, 2), (7, 4)]

/-- At 8 the window is the intervals 2 to 4, and only the call at 7 is in it. -/
example : ((addCalls (NewRollingCounter 3 2 0) sampleCalls).toOption.map fun r =>
    ((r.Sum 8 : Int), (r.Reduce 8 Count : Int))) = some (4, 1) := by decide +kernel

end Sum

/-! ### Min, Max and Avg -/

/-- What the reducers of a counter see: the totals of the intervals of the last `size`, up to
now's, that had calls, oldest first. -/
def intervalTotals [AddCommMonoid α] [IntCast α] (start d now : Int) (n : Nat)
    (calls : List (Int × Int)) : List α :=
  ((List.range n).map fun i : Nat => interval start d now - n + 1 + (i : Int)).filterMap fun j =>
    let cs := calls.filter fun c => interval start d c.1 = j
    if cs = [] then none else some ((cs.map fun c => (c.2 : α)).sum)

theorem foldl_points {β : Type} (f : β → α → β) (bs : List (Bucket α)) (a : β) :
    bs.foldl (fun acc b => b.Points.foldl f acc) a = (bs.flatMap Bucket.Points).foldl f a := by
  induction bs generalizing a with
  | nil => rfl
  | cons b bs ih => rw [List.foldl_cons, ih, List.flatMap_cons, List.foldl_append]

section Extremum

variable [LinearOrder α]

theorem foldl_extremum_gt (ps : List α) (a : α) :
    ps.foldl (extremum fun p r => p > r) (a, true) = (ps.foldl max a, true) := by
  induction ps generalizing a with
  | nil => rfl
  | cons p ps ih =>
    have hstep : extremum (fun p r => p > r) (a, true) p = (max a p, true) := by
      simp only [extremum, Bool.not_true, Bool.false_eq_true, ↓reduceIte, decide_eq_true_eq]
      split_ifs with h
      · rw [max_eq_right (le_of_lt h)]
      · rw [max_eq_left (not_lt.mp h)]
    rw [List.foldl_cons, hstep, ih, List.foldl_cons]

theorem foldl_extremum_lt (ps : List α) (a : α) :
    ps.foldl (extremum fun p r => p < r) (a, true) = (ps.foldl min a, true) := by
  induction ps generalizing a with
  | nil => rfl
  | cons p ps ih =>
    have hstep : extremum (fun p r => p < r) (a, true) p = (min a p, true) := by
      simp only [extremum, Bool.not_true, Bool.false_eq_true, ↓reduceIte, decide_eq_true_eq]
      split_ifs with h
      · rw [min_eq_right (le_of_lt h)]
      · rw [min_eq_left (not_lt.mp h)]
    rw [List.foldl_cons, hstep, ih, List.foldl_cons]

variable [Zero α]

theorem max_ofBuckets (bs : List (Bucket α)) :
    Max (Iterator.ofBuckets bs) = ((bs.flatMap Bucket.Points).max?).getD 0 := by
  have hbuckets : (Iterator.ofBuckets bs).buckets = bs := visit_ofBuckets bs
  rw [Max, hbuckets, foldl_points]
  cases bs.flatMap Bucket.Points with
  | nil => rfl
  | cons p ps =>
    have hfirst : extremum (fun p r => p > r) ((0 : α), false) p = (p, true) := rfl
    rw [List.foldl_cons, List.max?_cons', Option.getD_some, hfirst, foldl_extremum_gt]

theorem min_ofBuckets (bs : List (Bucket α)) :
    Min (Iterator.ofBuckets bs) = ((bs.flatMap Bucket.Points).min?).getD 0 := by
  have hbuckets : (Iterator.ofBuckets bs).buckets = bs := visit_ofBuckets bs
  rw [Min, hbuckets, foldl_points]
  cases bs.flatMap Bucket.Points with
  | nil => rfl
  | cons p ps =>
    have hfirst : extremum (fun p r => p < r) ((0 : α), false) p = (p, true) := rfl
    rw [List.foldl_cons, List.min?_cons', Option.getD_some, hfirst, foldl_extremum_lt]

end Extremum

theorem foldl_avg [AddCommMonoidWithOne α] (ps : List α) (s c : α) :
    ps.foldl (fun (acc : α × α) p => (acc.1 + p, acc.2 + 1)) (s, c) = (s + ps.sum, c + ps.length) := by
  induction ps generalizing s c with
  | nil => simp
  | cons p ps ih =>
    rw [List.foldl_cons, ih, List.sum_cons, List.length_cons, Nat.cast_succ]
    simp only [add_assoc, add_comm (1 : α) (ps.length : α)]

theorem avg_ofBuckets [AddCommMonoidWithOne α] [Div α] (bs : List (Bucket α)) :
    Avg (Iterator.ofBuckets bs) =
      (bs.flatMap Bucket.Points).sum / ((bs.flatMap Bucket.Points).length : α) := by
  have hbuckets : (Iterator.ofBuckets bs).buckets = bs := visit_ofBuckets bs
  simp only [Avg, hbuckets, foldl_points, foldl_avg, zero_add]

section Points

variable [AddCommMonoid α]

theorem points_adds_of_point (vs : List α) {b : Bucket α} {x : α} (hb : b.Points = [x])
    (hc : b.Count ≠ 0) : ((vs.map Call.add).foldl (fun b c => c.write b) b).Points = [x + vs.sum] := by
  induction vs generalizing b x with
  | nil => simp [hb]
  | cons v vs ih =>
    have hw : (Call.add v).write b = b.Add 0 v (Bucket.points_ne_nil hc) := by
      simp only [Call.write, addOrAppend, dif_neg hc]
    have hpt : ((Call.add v).write b).Points = [x + v] := by
      simp [hw, Bucket.Add, hb]
    rw [List.map_cons, List.foldl_cons, ih hpt (by rw [count_write]; omega), List.sum_cons,
      add_assoc]

theorem points_adds (vs : List α) :
    ((vs.map Call.add).foldl (fun b c => c.write b) (Bucket.empty : Bucket α)).Points =
      if vs = [] then [] else [vs.sum] := by
  cases vs with
  | nil => rfl
  | cons v vs =>
    have hpt : ((Call.add v).write (Bucket.empty : Bucket α)).Points = [v] := rfl
    rw [List.map_cons, List.foldl_cons, points_adds_of_point vs hpt (by rw [count_write]; omega),
      if_neg (List.cons_ne_nil v vs), List.sum_cons]

end Points

section Totals

variable [AddCommMonoid α] [IntCast α] {n : Nat} {d : Int}

theorem intervalBucket_counterCalls_points (start : Int) (calls : List (Int × Int)) (j : Int) :
    (intervalBucket start d (counterCalls calls : List (Int × Call α)) j).Points =
      let cs := calls.filter fun c => interval start d c.1 = j
      if cs = [] then [] else [(cs.map fun c => (c.2 : α)).sum] := by
  have hcalls : ((counterCalls calls : List (Int × Call α)).filter fun c => interval start d c.1 = j).map
      Prod.snd = ((calls.filter fun c => interval start d c.1 = j).map fun c => (c.2 : α)).map
        Call.add := by
    rw [filter_counterCalls start calls fun x => decide (x = j)]
    simp [counterCalls]
  rw [intervalBucket, hcalls, points_adds]
  simp only [List.map_eq_nil_iff]

/-- The points of the window are the totals of its intervals that had calls. -/
theorem window_points {start now : Int} {calls : List (Int × Int)}
    (hle : ∀ c ∈ (counterCalls calls : List (Int × Call α)),
      interval start d c.1 ≤ lastInterval start d (counterCalls calls : List (Int × Call α)))
    (hspan : interval start d now - lastInterval start d (counterCalls calls : List (Int × Call α)) < n) :
    (windowBuckets start d n (counterCalls calls : List (Int × Call α)) now).flatMap Bucket.Points =
      intervalTotals start d now n calls := by
  set m := n - (interval start d now - lastInterval start d (counterCalls calls : List (Int × Call α))).toNat
  have hsplit : List.range n = List.range m ++ (List.range (n - m)).map (m + ·) := by
    rw [← List.range_add]
    congr 1
    omega
  have hlater : ∀ k < n - m, (calls.filter fun c =>
      interval start d c.1 = interval start d now - n + 1 + ((m + k : Nat) : Int)) = [] := by
    intro k _
    refine List.filter_eq_nil_iff.mpr fun c hc => ?_
    have hc' : interval start d c.1 ≤ lastInterval start d (counterCalls calls : List (Int × Call α)) :=
      hle (c.1, .add (c.2 : α)) (List.mem_map_of_mem hc)
    simp only [decide_eq_true_eq]
    omega
  rw [intervalTotals, hsplit, List.map_append, List.filterMap_append]
  have hnone : List.filterMap (fun j =>
      let cs := calls.filter fun c => interval start d c.1 = j
      if cs = [] then none else some ((cs.map fun c => (c.2 : α)).sum))
      (((List.range (n - m)).map (m + ·)).map fun i : Nat => interval start d now - n + 1 + (i : Int)) = [] := by
    rw [List.filterMap_eq_nil_iff]
    intro j hj
    obtain ⟨i, hi, rfl⟩ := List.mem_map.mp hj
    obtain ⟨k, hk, rfl⟩ := List.mem_map.mp hi
    simp only [hlater k (List.mem_range.mp hk), ↓reduceIte]
  rw [hnone, List.append_nil, windowBuckets, List.flatMap_map, List.filterMap_map,
    List.filterMap_eq_flatMap_toList]
  simp only [intervalBucket_counterCalls_points]
  congr 1
  funext i
  simp only [Function.comp_apply]
  split_ifs <;> rfl

/-- When the last call is a whole window ago, no interval of the window had calls. -/
theorem intervalTotals_eq_nil {start now : Int} {calls : List (Int × Int)}
    (hle : ∀ c ∈ (counterCalls calls : List (Int × Call α)),
      interval start d c.1 ≤ lastInterval start d (counterCalls calls : List (Int × Call α)))
    (hspan : ¬ interval start d now - lastInterval start d (counterCalls calls : List (Int × Call α)) < n) :
    (intervalTotals start d now n calls : List α) = [] := by
  rw [intervalTotals, List.filterMap_eq_nil_iff]
  intro j hj
  obtain ⟨i, -, rfl⟩ := List.mem_map.mp hj
  have hcalls : (calls.filter fun c =>
      interval start d c.1 = interval start d now - n + 1 + (i : Int)) = [] := by
    refine List.filter_eq_nil_iff.mpr fun c hc => ?_
    have hc' : interval start d c.1 ≤ lastInterval start d (counterCalls calls : List (Int × Call α)) :=
      hle (c.1, .add (c.2 : α)) (List.mem_map_of_mem hc)
    simp only [decide_eq_true_eq]
    omega
  simp only [hcalls, ↓reduceIte]

end Totals

section Order

variable [Field α] [LinearOrder α]

/-- The reducers of a rolling counter see one point per interval that had calls, its total: from
its creation, after every run of `Add` calls in time order with values that are not negative,
at any later time `Max` and `Min` are the largest and the smallest interval total of the window
(zero when it had no calls) and `Avg` is their mean, not the mean value of a call. -/
theorem rollingCounter_min_max_avg {n : Nat} {d : Int} (hn : 0 < n) (hd : 0 < d) (start now : Int)
    (calls : List (Int × Int)) (hval : ∀ c ∈ calls, 0 ≤ c.2)
    (htime : (start :: (calls.map Prod.fst ++ [now])).Pairwise (· ≤ ·)) :
    ∃ r, addCalls (NewRollingCounter n d start) calls = .ok r ∧
      r.Max now = ((intervalTotals start d now n calls : List α).max?).getD 0 ∧
      r.Min now = ((intervalTotals start d now n calls : List α).min?).getD 0 ∧
      r.Avg now = (intervalTotals start d now n calls : List α).sum /
        ((intervalTotals start d now n calls : List α).length : α) := by
  obtain ⟨r, hrun, hle, hlast, hreduce⟩ := addCalls_reduce (α := α) hn hd start now calls hval htime
  refine ⟨r, hrun, ?_⟩
  simp only [RollingCounter.Max, RollingCounter.Min, RollingCounter.Avg, hreduce, reduceSpec]
  by_cases hspan : interval start d now - lastInterval start d
    (counterCalls calls : List (Int × Call α)) < n
  · simp only [if_pos hspan, max_ofBuckets, min_ofBuckets, avg_ofBuckets, window_points hle hspan,
      and_self]
  · simp [if_neg hspan, intervalTotals_eq_nil hle hspan]

/-- `Add(2)` at 5, and `Add(4)` and `Add(1)` at 7, on the counter of three buckets of two
nanoseconds. -/
def sampleCalls₂ : List (Int × Int) := [(5, 2), (7, 4), (7, 1)]

/-- There the interval totals are 2 and 5: `Avg` is 7/2, where the three calls average 7/3. -/
example : ((addCalls (NewRollingCounter 3 2 0) sampleCalls₂).toOption.map fun r =>
    ((r.Max 8 : ℚ), (r.Min 8 : ℚ), (r.Avg 8 : ℚ))) = some (5, 2, 7 / 2) := by decide +kernel

end Order

end Gkit.Stat
