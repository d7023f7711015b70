import Gkit.Stat.RollingCounter
import Mathlib

/-!
The rolling counter over `float64`. The points of `rolling_counter.go` are `float64`, whose
addition rounds; the theorems of `Gkit.Stat.RollingCounter` over a field say what the counter
computes with exact arithmetic. Here the point type is only asked to convert, add and compare
the integers of `[0, B]` exactly, as `float64` does below `2^53`. A counter run over such a type
then holds, bucket for bucket, the conversions of the points the counter over `Int` holds, and
its reducers give the conversions of the exact integer results.
-/

namespace Gkit.Stat

variable {α : Type}

/-- A point type on which the integers of `[0, B]` convert, add and compare exactly:
`float64`, rounding to nearest, with `B = 2^53`. -/
structure ExactBelow [Zero α] [One α] [Add α] [IntCast α] [NatCast α] [LT α] (B : Int) : Prop where
  intCast_zero : ((0 : Int) : α) = 0
  intCast_one : ((1 : Int) : α) = 1
  natCast_eq : ∀ k : Nat, (k : α) = ((k : Int) : α)
  intCast_add : ∀ i j : Int, 0 ≤ i → 0 ≤ j → i + j ≤ B → ((i + j : Int) : α) = (i : α) + (j : α)
  intCast_lt : ∀ i j : Int, 0 ≤ i → i ≤ B → 0 ≤ j → j ≤ B → ((i : α) < (j : α) ↔ i < j)

/-- The rationals convert every integer exactly. -/
theorem exactBelow_rat (B : Int) : ExactBelow (α := ℚ) B :=
  ⟨Int.cast_zero, Int.cast_one, fun k => (Int.cast_natCast k).symm,
    fun i j _ _ _ => Int.cast_add i j, fun _ _ _ _ _ _ => Int.cast_lt⟩

theorem lastInterval_counterCalls {β : Type} [IntCast α] [IntCast β] (start d : Int)
    (calls : List (Int × Int)) :
    lastInterval start d (counterCalls calls : List (Int × Call α)) =
      lastInterval start d (counterCalls calls : List (Int × Call β)) := by
  simp only [lastInterval, counterCalls, List.getLast?_map]
  cases calls.getLast? <;> rfl

/-- The values of some calls, bounded by those of all calls. -/
theorem sum_filter_le {calls : List (Int × Int)} (hval : ∀ c ∈ calls, 0 ≤ c.2)
    (p : Int × Int → Bool) : ((calls.filter p).map Prod.snd).sum ≤ (calls.map Prod.snd).sum :=
  List.Sublist.sum_le_sum ((List.filter_sublist).map Prod.snd)
    fun v hv => by obtain ⟨c, hc, rfl⟩ := List.mem_map.mp hv; exact hval c hc

theorem sum_filter_nonneg {calls : List (Int × Int)} (hval : ∀ c ∈ calls, 0 ≤ c.2)
    (p : Int × Int → Bool) : 0 ≤ ((calls.filter p).map Prod.snd).sum :=
  List.sum_nonneg fun v hv => by
    obtain ⟨c, hc, rfl⟩ := List.mem_map.mp hv
    exact hval c (List.mem_of_mem_filter hc)

/-! ### The integer counter's window -/

/-- The points of the integer counter's window are interval totals, each within the total of
all calls; they add up to the values of the calls in the window, and there are no more of them
than calls. -/
theorem window_points_int {n : Nat} {start d now B : Int} {calls : List (Int × Int)}
    (hval : ∀ c ∈ calls, 0 ≤ c.2) (htot : (calls.map Prod.snd).sum ≤ B)
    (hle : ∀ c ∈ (counterCalls calls : List (Int × Call Int)),
      interval start d c.1 ≤ lastInterval start d (counterCalls calls : List (Int × Call Int)))
    (hlast : lastInterval start d (counterCalls calls : List (Int × Call Int)) ≤ interval start d now)
    (hspan : interval start d now - lastInterval start d (counterCalls calls : List (Int × Call Int)) < n) :
    (∀ v ∈ (windowBuckets start d n (counterCalls calls : List (Int × Call Int)) now).flatMap
        Bucket.Points, 0 ≤ v ∧ v ≤ B) ∧
      ((windowBuckets start d n (counterCalls calls : List (Int × Call Int)) now).flatMap
        Bucket.Points).sum =
        ((calls.filter fun c => interval start d now - n < interval start d c.1).map Prod.snd).sum ∧
      ((windowBuckets start d n (counterCalls calls : List (Int × Call Int)) now).flatMap
        Bucket.Points).length ≤ calls.length := by
  have hbucket : ∀ b ∈ windowBuckets start d n (counterCalls calls : List (Int × Call Int)) now,
      ∃ j, b = intervalBucket start d (counterCalls calls : List (Int × Call Int)) j := by
    intro b hb
    obtain ⟨i, -, rfl⟩ := List.mem_map.mp hb
    exact ⟨_, rfl⟩
  refine ⟨fun v hv => ?_, ?_, ?_⟩
  · obtain ⟨b, hb, hvb⟩ := List.mem_flatMap.mp hv
    obtain ⟨j, rfl⟩ := hbucket b hb
    rw [intervalBucket_counterCalls_points] at hvb
    dsimp only at hvb
    split at hvb
    · exact absurd hvb List.not_mem_nil
    · rw [List.mem_singleton.mp hvb]
      simp only [Int.cast_id]
      exact ⟨sum_filter_nonneg hval _, le_trans (sum_filter_le hval _) htot⟩
  · rw [List.flatMap_def, List.sum_flatten, List.map_map, Function.comp_def,
      sum_windowBuckets_points hle hlast hspan]
    simp only [Int.cast_id]
  · have hpoints : ∀ b ∈ windowBuckets start d n (counterCalls calls : List (Int × Call Int)) now,
        b.Points.length ≤ b.Count := by
      intro b hb
      obtain ⟨j, rfl⟩ := hbucket b hb
      rw [intervalBucket_counterCalls_points, count_intervalBucket,
        filter_counterCalls start calls fun x => decide (x = j), length_counterCalls]
      dsimp only
      split
      · simp
      · rename_i h
        exact List.length_pos_iff.mpr h
    calc ((windowBuckets start d n (counterCalls calls : List (Int × Call Int)) now).flatMap
          Bucket.Points).length
        = ((windowBuckets start d n (counterCalls calls : List (Int × Call Int)) now).map
            fun b => b.Points.length).sum := List.length_flatMap
      _ ≤ ((windowBuckets start d n (counterCalls calls : List (Int × Call Int)) now).map
            Bucket.Count).sum := List.sum_le_sum hpoints
      _ = (calls.filter fun c => interval start d now - n < interval start d c.1).length :=
          count_windowBuckets hle hlast hspan
      _ ≤ calls.length := (List.filter_sublist).length_le

/-! ### Exact conversions -/

theorem foldl_avg_pair [Add α] [One α] (ps : List α) (s c : α) :
    ps.foldl (fun (acc : α × α) p => (acc.1 + p, acc.2 + 1)) (s, c) =
      (ps.foldl (· + ·) s, (ps.map fun _ => (1 : α)).foldl (· + ·) c) := by
  induction ps generalizing s c with
  | nil => rfl
  | cons p ps ih => rw [List.foldl_cons, ih]; rfl

/-- The `Min` and `Max` loop over the images of a list under `f`, when each step of the loop is
the image of a step `sel` that keeps the values `good`. -/
theorem foldl_extremum_map {β : Type} (f : β → α) (better : α → α → Bool) (sel : β → β → β)
    (good : β → Prop)
    (hsel : ∀ x y, good x → good y → extremum better (f x, true) (f y) = (f (sel x y), true) ∧
      good (sel x y))
    (vs : List β) (a : β) (ha : good a) (hvs : ∀ v ∈ vs, good v) :
    (vs.map f).foldl (extremum better) (f a, true) = (f (vs.foldl sel a), true) := by
  induction vs generalizing a with
  | nil => rfl
  | cons v vs ih =>
    obtain ⟨hstep, hgood⟩ := hsel a v ha (hvs v List.mem_cons_self)
    rw [List.map_cons, List.foldl_cons, hstep, ih (sel a v) hgood
      fun w hw => hvs w (List.mem_cons_of_mem v hw), List.foldl_cons]

section Exact

variable [Zero α] [One α] [Add α] [IntCast α] [NatCast α] [LT α] {B : Int}
  (hex : ExactBelow (α := α) B)
include hex

theorem points_adds_cast (vs : List Int) (hv : ∀ v ∈ vs, 0 ≤ v) {b : Bucket α} {x : Int}
    (hb : b.Points = [(x : α)]) (hc : b.Count ≠ 0) (hx : 0 ≤ x) (htot : x + vs.sum ≤ B) :
    ((vs.map fun v : Int => Call.add (v : α)).foldl (fun b c => c.write b) b).Points =
      [((x + vs.sum : Int) : α)] := by
  induction vs generalizing b x with
  | nil => simp [hb]
  | cons v vs ih =>
    rw [List.sum_cons] at htot
    have hv0 : 0 ≤ v := hv v List.mem_cons_self
    have hvs : 0 ≤ vs.sum := List.sum_nonneg fun w hw => hv w (List.mem_cons_of_mem v hw)
    have hw : (Call.add (v : α)).write b = b.Add 0 (v : α) (Bucket.points_ne_nil hc) := by
      simp only [Call.write, addOrAppend, dif_neg hc]
    have hpt : ((Call.add (v : α)).write b).Points = [((x + v : Int) : α)] := by
      simp [hw, Bucket.Add, hb, hex.intCast_add x v hx hv0 (by omega)]
    rw [List.map_cons, List.foldl_cons, ih (fun w hw => hv w (List.mem_cons_of_mem v hw)) hpt
      (by rw [count_write]; omega) (by omega) (by omega), List.sum_cons, add_assoc]

/-- The bucket of an interval holds the conversion of the integer counter's point. -/
theorem intervalBucket_cast (start d : Int) (calls : List (Int × Int)) (hval : ∀ c ∈ calls, 0 ≤ c.2)
    (htot : (calls.map Prod.snd).sum ≤ B) (j : Int) :
    (intervalBucket start d (counterCalls calls : List (Int × Call α)) j).Points =
      (intervalBucket start d (counterCalls calls : List (Int × Call Int)) j).Points.map
        fun v : Int => (v : α) := by
  have hsub := le_trans (sum_filter_le hval fun c => interval start d c.1 = j) htot
  have hval' : ∀ c ∈ calls.filter fun c => interval start d c.1 = j, 0 ≤ c.2 :=
    fun c hc => hval c (List.mem_of_mem_filter hc)
  rw [intervalBucket_counterCalls_points (α := Int), intervalBucket,
    filter_counterCalls start calls fun x => decide (x = j)]
  dsimp only
  generalize calls.filter (fun c => interval start d c.1 = j) = cs at hsub hval' ⊢
  cases cs with
  | nil => rfl
  | cons c cs =>
    have hmap : (counterCalls cs : List (Int × Call α)).map Prod.snd =
        (cs.map Prod.snd).map fun v : Int => Call.add (v : α) := by
      simp [counterCalls]
    have hfirst : (Call.add (c.2 : α)).write Bucket.empty = Bucket.empty.Append (c.2 : α) := rfl
    rw [List.map_cons, List.sum_cons] at hsub
    have hcs : ∀ v ∈ cs.map Prod.snd, 0 ≤ v := fun v hv => by
      obtain ⟨c', hc', rfl⟩ := List.mem_map.mp hv
      exact hval' c' (List.mem_cons_of_mem c hc')
    simp only [counterCalls, List.map_cons] at hmap ⊢
    rw [List.foldl_cons, hmap, hfirst, points_adds_cast hex (cs.map Prod.snd) hcs
      (by simp [Bucket.Append, Bucket.empty]) (by simp [Bucket.Append, Bucket.empty])
      (hval' c List.mem_cons_self) hsub]
    simp

/-- The points of the window are the conversions of the integer counter's. -/
theorem window_points_cast (start d now : Int) (n : Nat) {calls : List (Int × Int)}
    (hval : ∀ c ∈ calls, 0 ≤ c.2) (htot : (calls.map Prod.snd).sum ≤ B) :
    (windowBuckets start d n (counterCalls calls : List (Int × Call α)) now).flatMap Bucket.Points =
      ((windowBuckets start d n (counterCalls calls : List (Int × Call Int)) now).flatMap
        Bucket.Points).map fun v : Int => (v : α) := by
  simp only [windowBuckets, List.map_flatMap, List.flatMap_map]
  rw [lastInterval_counterCalls (β := Int)]
  congr 1
  funext i
  exact intervalBucket_cast hex start d calls hval htot _

theorem foldl_add_cast (vs : List Int) (acc : Int) (hacc : 0 ≤ acc) (hvs : ∀ v ∈ vs, 0 ≤ v)
    (htot : acc + vs.sum ≤ B) :
    (vs.map fun v : Int => (v : α)).foldl (· + ·) (acc : α) = ((acc + vs.sum : Int) : α) := by
  induction vs generalizing acc with
  | nil => simp
  | cons v vs ih =>
    rw [List.sum_cons] at htot
    have hv := hvs v List.mem_cons_self
    have hrest : 0 ≤ vs.sum := List.sum_nonneg fun w hw => hvs w (List.mem_cons_of_mem v hw)
    rw [List.map_cons, List.foldl_cons, ← hex.intCast_add acc v hacc hv (by omega),
      ih (acc + v) (by omega) (fun w hw => hvs w (List.mem_cons_of_mem v hw)) (by omega),
      List.sum_cons, add_assoc]

section Reducers

variable (bs : List (Bucket α)) {vs : List Int}
  (hbs : bs.flatMap Bucket.Points = vs.map fun v : Int => (v : α))
include hbs

theorem sum_ofBuckets_cast (hvs : ∀ v ∈ vs, 0 ≤ v) (htot : vs.sum ≤ B) :
    Sum (Iterator.ofBuckets bs) = ((vs.sum : Int) : α) := by
  have hbuckets : (Iterator.ofBuckets bs).buckets = bs := visit_ofBuckets bs
  rw [Sum, hbuckets, foldl_points, hbs, ← hex.intCast_zero,
    foldl_add_cast hex vs 0 le_rfl hvs (by omega), zero_add]

theorem avg_ofBuckets_cast [Div α] (hvs : ∀ v ∈ vs, 0 ≤ v) (htot : vs.sum ≤ B)
    (hlen : (vs.length : Int) ≤ B) :
    Avg (Iterator.ofBuckets bs) = ((vs.sum : Int) : α) / ((vs.length : Int) : α) := by
  have hbuckets : (Iterator.ofBuckets bs).buckets = bs := visit_ofBuckets bs
  have hones : (vs.map fun v : Int => (v : α)).map (fun _ => (1 : α)) =
      (vs.map fun _ => (1 : Int)).map fun v : Int => (v : α) := by
    rw [List.map_map, List.map_map]
    congr 1
    funext v
    exact hex.intCast_one.symm
  have hlen' : ((vs.map fun _ => (1 : Int)).sum) = vs.length := by simp
  simp only [Avg, hbuckets, foldl_points, hbs, foldl_avg_pair]
  rw [hones, ← hex.intCast_zero, foldl_add_cast hex vs 0 le_rfl hvs (by omega),
    foldl_add_cast hex _ 0 le_rfl (by simp) (by omega), hlen', zero_add, zero_add]

variable [DecidableRel (α := α) (· < ·)] (hvs : ∀ v ∈ vs, 0 ≤ v ∧ v ≤ B)
include hvs

theorem max_ofBuckets_cast : Max (Iterator.ofBuckets bs) = (((vs.max?).getD 0 : Int) : α) := by
  have hbuckets : (Iterator.ofBuckets bs).buckets = bs := visit_ofBuckets bs
  have hsel : ∀ x y : Int, 0 ≤ x ∧ x ≤ B → 0 ≤ y ∧ y ≤ B →
      extremum (fun p r => p > r) ((x : α), true) (y : α) = (((max x y : Int) : α), true) ∧
        (0 ≤ max x y ∧ max x y ≤ B) := by
    intro x y hx hy
    refine ⟨?_, by omega⟩
    simp only [extremum, Bool.not_true, Bool.false_eq_true, ↓reduceIte, gt_iff_lt,
      hex.intCast_lt x y hx.1 hx.2 hy.1 hy.2, decide_eq_true_eq]
    split_ifs with h
    · rw [max_eq_right h.le]
    · rw [max_eq_left (not_lt.mp h)]
  rw [Max, hbuckets, foldl_points, hbs]
  cases vs with
  | nil => exact hex.intCast_zero.symm
  | cons v vs =>
    have hfirst : extremum (fun p r => p > r) ((0 : α), false) (v : α) = ((v : α), true) := rfl
    rw [List.map_cons, List.foldl_cons, hfirst, foldl_extremum_map _ _ max _ hsel vs v
      (hvs v List.mem_cons_self) fun w hw => hvs w (List.mem_cons_of_mem v hw),
      List.max?_cons', Option.getD_some]

theorem min_ofBuckets_cast : Min (Iterator.ofBuckets bs) = (((vs.min?).getD 0 : Int) : α) := by
  have hbuckets : (Iterator.ofBuckets bs).buckets = bs := visit_ofBuckets bs
  have hsel : ∀ x y : Int, 0 ≤ x ∧ x ≤ B → 0 ≤ y ∧ y ≤ B →
      extremum (fun p r => p < r) ((x : α), true) (y : α) = (((min x y : Int) : α), true) ∧
        (0 ≤ min x y ∧ min x y ≤ B) := by
    intro x y hx hy
    refine ⟨?_, by omega⟩
    simp only [extremum, Bool.not_true, Bool.false_eq_true, ↓reduceIte,
      hex.intCast_lt y x hy.1 hy.2 hx.1 hx.2, decide_eq_true_eq]
    split_ifs with h
    · rw [min_eq_right h.le]
    · rw [min_eq_left (not_lt.mp h)]
  rw [Min, hbuckets, foldl_points, hbs]
  cases vs with
  | nil => exact hex.intCast_zero.symm
  | cons v vs =>
    have hfirst : extremum (fun p r => p < r) ((0 : α), false) (v : α) = ((v : α), true) := rfl
    rw [List.map_cons, List.foldl_cons, hfirst, foldl_extremum_map _ _ min _ hsel vs v
      (hvs v List.mem_cons_self) fun w hw => hvs w (List.mem_cons_of_mem v hw),
      List.min?_cons', Option.getD_some]

end Reducers

end Exact

/-! ### The counter over `float64` -/

section Float64

variable [Zero α] [One α] [Add α] [IntCast α] [NatCast α] [LT α]

/-- The reducers of a rolling counter over `float64` see one point per interval that had calls,
its total, exactly while the total of all calls and their number stay below `2^53`: after every
run of `Add` calls in time order with values that are not negative, at any later time `Max` and
`Min` are the conversions of the largest and the smallest interval total of the window (zero when
it had no calls), and, when some interval of the window had calls, `Avg` divides the conversion
of their sum by that of their number. -/
theorem rollingCounter_min_max_avg_float64 [DecidableRel (α := α) (· < ·)] [Div α]
    (hex : ExactBelow (α := α) (2 ^ 53)) {n : Nat} {d : Int} (hn : 0 < n) (hd : 0 < d)
    (start now : Int) (calls : List (Int × Int)) (hval : ∀ c ∈ calls, 0 ≤ c.2)
    (htime : (start :: (calls.map Prod.fst ++ [now])).Pairwise (· ≤ ·))
    (htot : (calls.map Prod.snd).sum ≤ 2 ^ 53) (hlen : (calls.length : Int) ≤ 2 ^ 53) :
    ∃ r, addCalls (NewRollingCounter n d start) calls = .ok r ∧
      r.Max now = ((((intervalTotals start d now n calls : List Int).max?).getD 0 : Int) : α) ∧
      r.Min now = ((((intervalTotals start d now n calls : List Int).min?).getD 0 : Int) : α) ∧
      ((intervalTotals start d now n calls : List Int) ≠ [] →
        r.Avg now = (((intervalTotals start d now n calls : List Int).sum : Int) : α) /
          (((intervalTotals start d now n calls : List Int).length : Int) : α)) := by
  obtain ⟨r, hrun, hle, hlast, hreduce⟩ := addCalls_reduce (α := α) hn hd start now calls hval htime
  obtain ⟨-, -, hle', hlast', -⟩ := addCalls_reduce (α := Int) hn hd start now calls hval htime
  refine ⟨r, hrun, ?_⟩
  simp only [RollingCounter.Max, RollingCounter.Min, RollingCounter.Avg, hreduce, reduceSpec]
  have hspan' : interval start d now - lastInterval start d (counterCalls calls : List (Int × Call α)) <
      n ↔ interval start d now - lastInterval start d (counterCalls calls : List (Int × Call Int)) < n := by
    rw [lastInterval_counterCalls (β := Int)]
  by_cases hspan : interval start d now - lastInterval start d
    (counterCalls calls : List (Int × Call α)) < n
  · obtain ⟨hvs, hsum, hlen'⟩ := window_points_int hval htot hle' hlast' (hspan'.mp hspan)
    have hcast := window_points_cast hex start d now n hval htot
    rw [← window_points hle' (hspan'.mp hspan)]
    simp only [if_pos hspan]
    refine ⟨max_ofBuckets_cast hex _ hcast hvs, min_ofBuckets_cast hex _ hcast hvs, fun _ => ?_⟩
    exact avg_ofBuckets_cast hex _ hcast (fun v hv => (hvs v hv).1)
      (by rw [hsum]; exact le_trans (sum_filter_le hval _) htot) (le_trans (by exact_mod_cast hlen') hlen)
  · simp only [if_neg hspan, intervalTotals_eq_nil hle' (mt hspan'.mpr hspan)]
    exact ⟨hex.intCast_zero.symm, hex.intCast_zero.symm, fun h => absurd rfl h⟩

/-- `Add(2)` at 5, and `Add(4)` and `Add(1)` at 7, read at 8, on the counter of three buckets of
two nanoseconds over the rationals. -/
theorem rollingCounter_min_max_avg_float64_sample :
    ∃ r, addCalls (NewRollingCounter 3 2 0) sampleCalls₂ = .ok r ∧
      r.Max 8 = ((((intervalTotals 0 2 8 3 sampleCalls₂ : List Int).max?).getD 0 : Int) : ℚ) ∧
      r.Min 8 = ((((intervalTotals 0 2 8 3 sampleCalls₂ : List Int).min?).getD 0 : Int) : ℚ) ∧
      ((intervalTotals 0 2 8 3 sampleCalls₂ : List Int) ≠ [] →
        r.Avg 8 = (((intervalTotals 0 2 8 3 sampleCalls₂ : List Int).sum : Int) : ℚ) /
          (((intervalTotals 0 2 8 3 sampleCalls₂ : List Int).length : Int) : ℚ)) :=
  rollingCounter_min_max_avg_float64 (exactBelow_rat _) (by decide) (by decide) 0 8 sampleCalls₂
    (fun c hc => by
      simp only [sampleCalls₂, List.mem_cons, List.not_mem_nil, or_false] at hc
      rcases hc with rfl | rfl | rfl <;> decide)
    (by decide) (by decide) (by decide)

end Float64

end Gkit.Stat
