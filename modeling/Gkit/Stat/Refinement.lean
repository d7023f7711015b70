import Gkit.Stat.RollingPolicy
import Mathlib

/-!
What `RollingPolicy` is for. The calls are recorded with their times, and time is cut into
intervals of `bucketDuration` counted from the policy's creation. Each bucket of the ring holds
what the calls of one of the last `size` intervals wrote, the newest at `offset`, and `Reduce`
hands over the intervals from `size` before now up to the last call's, oldest first.
-/

namespace Gkit.Stat

open RollingPolicy (resetRun)

variable {α : Type}

/-- The calls of a rolling counter: `Add(val)` and `Append(val)`. -/
inductive Call (α : Type) where
  | add (val : α)
  | append (val : α)

section Calls

variable [Add α]

/-- What a call writes into the bucket of its interval. -/
def Call.write : Call α → Bucket α → Bucket α
  | .add val => (addOrAppend · val)
  | .append val => (·.Append val)

/-- A call made on the policy at time `now`. -/
def applyCall (r : RollingPolicy α) (c : Call α) (now : Int) : RollingPolicy α :=
  match c with
  | .add val => r.Add val now
  | .append val => r.Append val now

/-- The policy after a run of timed calls. -/
def runCalls (r : RollingPolicy α) (calls : List (Int × Call α)) : RollingPolicy α :=
  calls.foldl (fun r c => applyCall r c.2 c.1) r

end Calls

/-! ### The timestamped model -/

section Spec

variable [Add α] (start d : Int)

/-- The interval a time falls in, counted from `start`. -/
def interval (t : Int) : Int := (t - start) / d

/-- The bucket the calls of interval `j` write, from empty. -/
def intervalBucket (calls : List (Int × Call α)) (j : Int) : Bucket α :=
  ((calls.filter fun c => interval start d c.1 = j).map Prod.snd).foldl (fun b c => c.write b) .empty

/-- The interval of the last call, and the first interval before any. -/
def lastInterval (calls : List (Int × Call α)) : Int :=
  match calls.getLast? with
  | some c => interval start d c.1
  | none => 0

/-- The buckets of the window at time `now`: the intervals from `size` before now's up to the
last call's, oldest first. -/
def windowBuckets (n : Nat) (calls : List (Int × Call α)) (now : Int) : List (Bucket α) :=
  let span := interval start d now - lastInterval start d calls
  (List.range (n - span.toNat)).map fun i : Nat =>
    intervalBucket start d calls (interval start d now - n + 1 + (i : Int))

/-- What `Reduce` should give: the reducer on the window, or zero when the last call is a whole
window ago. -/
def reduceSpec [Zero α] (n : Nat) (calls : List (Int × Call α)) (now : Int) (f : Iterator α → α) : α :=
  if interval start d now - lastInterval start d calls < n then
    f (Iterator.ofBuckets (windowBuckets start d n calls now))
  else 0

@[simp] theorem intervalBucket_nil (j : Int) : intervalBucket start d ([] : List (Int × Call α)) j = .empty :=
  rfl

theorem intervalBucket_append (calls : List (Int × Call α)) (c : Int × Call α) (j : Int) :
    intervalBucket start d (calls ++ [c]) j =
      if interval start d c.1 = j then c.2.write (intervalBucket start d calls j)
      else intervalBucket start d calls j := by
  unfold intervalBucket
  by_cases h : interval start d c.1 = j
  · simp [List.filter_append,h]
  · simp [List.filter_append,h]

theorem intervalBucket_of_lt {calls : List (Int × Call α)} {j k : Int}
    (hle : ∀ c ∈ calls, interval start d c.1 ≤ k) (hj : k < j) : intervalBucket start d calls j = .empty := by
  unfold intervalBucket
  rw [List.filter_eq_nil_iff.mpr fun c hc => by
    have := hle c hc
    simp only [decide_eq_true_eq]
    omega]
  rfl

omit [Add α] in
theorem lastInterval_append (calls : List (Int × Call α)) (c : Int × Call α) :
    lastInterval start d (calls ++ [c]) = interval start d c.1 := by
  unfold lastInterval
  rw [List.getLast?_append,List.getLast?_singleton,Option.some_or]

theorem length_windowBuckets (n : Nat) (calls : List (Int × Call α)) (now : Int) :
    (windowBuckets start d n calls now).length =
      n - (interval start d now - lastInterval start d calls).toNat := by
  simp [windowBuckets]

end Spec

theorem visit_ofBuckets (bs : List (Bucket α)) : (Iterator.ofBuckets bs).visit bs.length = bs := by
  suffices h : ∀ k i, i + k = bs.length →
      Iterator.visit ⟨bs.length,i,bs,i % bs.length⟩ k = bs.drop i by
    have := h bs.length 0 (Nat.zero_add _)
    rwa [Nat.zero_mod] at this
  intro k
  induction k with
  | zero =>
    intro i hi
    rw [Nat.add_zero] at hi
    rw [Iterator.visit,hi,List.drop_length]
  | succ k ih =>
    intro i hi
    have hlt : i < bs.length := by omega
    have hnext : Iterator.Next ⟨bs.length,i,bs,i % bs.length⟩ = true := by
      simp [Iterator.Next]
      omega
    rw [Iterator.visit,if_pos hnext,Iterator.Bucket,if_pos hnext,Nat.mod_eq_of_lt hlt,
      List.getElem?_eq_getElem hlt]
    dsimp only [Option.map_some]
    rw [ih (i + 1) (by omega),List.drop_eq_getElem_cons hlt]

/-! ### The ring -/

/-- The index of the bucket `j` intervals before the one at `o`, going back round the ring. -/
def slotIndex (n o j : Nat) : Nat := if j ≤ o then o - j else o + n - j

theorem slotIndex_lt {n o j : Nat} (ho : o < n) (hj : j < n) : slotIndex n o j < n := by
  unfold slotIndex
  split <;> omega

theorem resetRun_getElem? (w : Window α) (offset i k p : Nat) :
    (resetRun w offset i k).1.window[p]? =
      if i ≤ p ∧ p < i + k then w.window[p]?.map Bucket.Reset else w.window[p]? := by
  induction k generalizing w offset i with
  | zero =>
    rw [resetRun,if_neg (by omega)]
  | succ k ih =>
    rw [resetRun,ih]
    simp only [Window.ResetBucket,List.getElem?_modify]
    by_cases hp : i = p
    · subst hp
      rw [if_neg (by omega),if_pos ⟨Nat.le_refl _,by omega⟩]
      simp
    · by_cases hr : i + 1 ≤ p ∧ p < i + 1 + k
      · rw [if_pos hr,if_pos (by omega)]
        simp [hp]
      · rw [if_neg hr,if_neg (by omega)]
        simp [hp]

theorem resetRun_length (w : Window α) (offset i k : Nat) :
    (resetRun w offset i k).1.window.length = w.window.length := by
  induction k generalizing w offset i with
  | zero => rfl
  | succ k ih => rw [resetRun,ih,Window.ResetBucket,List.length_modify]

theorem resetRun_size (w : Window α) (offset i k : Nat) :
    (resetRun w offset i k).1.size = w.size := by
  induction k generalizing w offset i with
  | zero => rfl
  | succ k ih => rw [resetRun,ih]; rfl

theorem resetRun_offset (w : Window α) (offset i k : Nat) :
    (resetRun w offset i k).2 = if k = 0 then offset else i + k - 1 := by
  induction k generalizing w offset i with
  | zero => rfl
  | succ k ih =>
    rw [resetRun,ih,if_neg (Nat.succ_ne_zero k)]
    split <;> omega

/-- The two reset loops of `add` for `m` buckets after `o`, on a ring of `n`. -/
def resets (w : Window α) (o n m : Nat) : Window α × Nat :=
  let first := resetRun w o (o + 1) ((if o + 1 + m > n then n else o + 1 + m) - (o + 1))
  resetRun first.1 first.2 0 (if o + 1 + m > n then o + 1 + m - n else 0)

section Resets

variable {w : Window α} {n o m : Nat}

theorem resets_length : (resets w o n m).1.window.length = w.window.length := by
  unfold resets
  rw [resetRun_length,resetRun_length]

/-- The loops clear the `m` buckets after `o`, going round the ring: those `p` whose distance
forward from `o + 1` is below `m`. -/
theorem resets_getElem? (hlen : w.window.length = n) (ho : o < n) {p : Nat} (hp : p < n) :
    (resets w o n m).1.window[p]? =
      if (if o < p then p - o - 1 else p + n - o - 1) < m then some .empty else w.window[p]? := by
  have hwp : w.window[p]? = some w.window[p] := List.getElem?_eq_getElem (by omega)
  unfold resets
  rw [resetRun_getElem?,resetRun_getElem?,hwp]
  split_ifs <;> first | rfl | omega

theorem resets_offset (ho : o < n) (hm : m ≤ n) (hm₁ : 1 ≤ m) :
    (resets w o n m).2 = if o + m < n then o + m else o + m - n := by
  unfold resets
  rw [resetRun_offset,resetRun_offset]
  split_ifs <;> omega

end Resets

/-- After moving `o` on by `m` and clearing the `m` buckets passed, the slot `j` back from the
new offset is cleared for `j < m` and is the old slot `j - m` otherwise. -/
theorem slotIndex_advance {n o m j : Nat} (ho : o < n) (hm : m ≤ n) (hj : j < n) :
    ((if o < slotIndex n (if o + m < n then o + m else o + m - n) j then
        slotIndex n (if o + m < n then o + m else o + m - n) j - o - 1
      else slotIndex n (if o + m < n then o + m else o + m - n) j + n - o - 1) < m ↔ j < m) ∧
    (m ≤ j → slotIndex n (if o + m < n then o + m else o + m - n) j = slotIndex n o (j - m)) := by
  unfold slotIndex
  constructor
  · split_ifs <;> omega
  · intro hmj
    split_ifs <;> omega

theorem getElem?_modify_of_some {β : Type} {l : List β} {i p : Nat} {g : β → β} {b : β}
    (h : l[p]? = some b) : (l.modify i g)[p]? = some (if i = p then g b else b) := by
  rw [List.getElem?_modify,h]
  rfl

theorem slotIndex_zero {n o : Nat} : slotIndex n o 0 = o := by
  unfold slotIndex
  rw [if_pos (Nat.zero_le o),Nat.sub_zero]

theorem slotIndex_ne_offset {n o j : Nat} (hj : 0 < j) (hjn : j < n) :
    slotIndex n o j ≠ o := by
  unfold slotIndex
  split <;> omega

/-! ### The invariant -/

section Model

variable [Add α] {n : Nat} {start d : Int} {r : RollingPolicy α} {calls : List (Int × Call α)}

/-- The policy holds the timestamped calls: a ring of `n` buckets, the last append time at the
start of the last call's interval, and in the slot `j` back from `offset` what the calls of
the interval `j` before the last call's wrote. -/
structure Represents (n : Nat) (start d : Int) (r : RollingPolicy α) (calls : List (Int × Call α)) :
    Prop where
  size_eq : r.size = n
  length_window : r.window.window.length = n
  offset_lt : r.offset < n
  bucketDuration_eq : r.bucketDuration = d
  lastAppendTime_eq : r.lastAppendTime = start + lastInterval start d calls * d
  interval_le : ∀ c ∈ calls, interval start d c.1 ≤ lastInterval start d calls
  slot : ∀ j < n, r.window.window[slotIndex n r.offset j]? =
    some (intervalBucket start d calls (lastInterval start d calls - j))

theorem represents_new (hn : 0 < n) (d start : Int) :
    Represents n start d (NewRollingPolicy (NewWindow n) d start) ([] : List (Int × Call α)) where
  size_eq := rfl
  length_window := List.length_replicate
  offset_lt := hn
  bucketDuration_eq := rfl
  lastAppendTime_eq := by simp [NewRollingPolicy,lastInterval]
  interval_le := nofun
  slot := fun j hj => by
    rw [intervalBucket_nil]
    exact List.getElem?_replicate_of_lt (slotIndex_lt hn hj)

theorem Represents.timespan (h : Represents n start d r calls) (hd : 0 < d) {now : Int}
    (hnow : lastInterval start d calls ≤ interval start d now) :
    r.timespan now = interval start d now - lastInterval start d calls := by
  have hle : lastInterval start d calls * d ≤ now - start := (Int.le_ediv_iff_mul_le hd).mp hnow
  have hv : (now - r.lastAppendTime).tdiv r.bucketDuration =
      interval start d now - lastInterval start d calls := by
    rw [h.lastAppendTime_eq,h.bucketDuration_eq,Int.tdiv_eq_ediv_of_nonneg (by omega),
      show now - (start + lastInterval start d calls * d) =
        (now - start) + (-lastInterval start d calls) * d by rw [Int.neg_mul]; omega,
      Int.add_mul_ediv_right _ _ (Int.ne_of_gt hd)]
    unfold interval
    omega
  unfold RollingPolicy.timespan
  dsimp only
  rw [hv,if_pos (by omega)]

theorem intervalBucket_append_of_ne {t j : Int} (c : Call α) (hne : interval start d t ≠ j) :
    intervalBucket start d (calls ++ [(t,c)]) j = intervalBucket start d calls j := by
  rw [intervalBucket_append,if_neg hne]

theorem interval_le_append {t : Int} (c : Call α) (h : Represents n start d r calls)
    (ht : lastInterval start d calls ≤ interval start d t) :
    ∀ c' ∈ calls ++ [(t,c)], interval start d c'.1 ≤ lastInterval start d (calls ++ [(t,c)]) := by
  rw [lastInterval_append]
  intro c' hc'
  rcases List.mem_append.mp hc' with hc' | hc'
  · exact Int.le_trans (h.interval_le c' hc') ht
  · obtain rfl := List.mem_singleton.mp hc'
    exact Int.le_refl _

section Step

variable {f : Window α → Nat → α → Window α} {val : α} {c : Call α}
  (hf : ∀ w o, f w o val = { w with window := w.window.modify o c.write })
include hf

theorem Represents.add_of_same (h : Represents n start d r calls) (hd : 0 < d) {t : Int}
    (ht : interval start d t = lastInterval start d calls) :
    Represents n start d (r.add f val t) (calls ++ [(t,c)]) := by
  have hts : r.timespan t = 0 := by
    rw [h.timespan hd (Int.le_of_eq ht.symm)]
    omega
  have hlast := lastInterval_append start d calls (t,c)
  have hadd : r.add f val t = { r with window := f r.window r.offset val } := by
    unfold RollingPolicy.add
    dsimp only
    rw [hts,if_neg (Int.lt_irrefl 0)]
  rw [hadd]
  refine ⟨h.size_eq,?_,h.offset_lt,h.bucketDuration_eq,?_,interval_le_append c h (Int.le_of_eq ht.symm),?_⟩
  · rw [hf,List.length_modify]
    exact h.length_window
  · rw [hlast,ht]
    exact h.lastAppendTime_eq
  · intro j hj
    show (f r.window r.offset val).window[slotIndex n r.offset j]? = _
    rw [hf,getElem?_modify_of_some (h.slot j hj),hlast,ht]
    by_cases hj0 : j = 0
    · -- the bucket of the current interval takes the write
      subst hj0
      rw [slotIndex_zero,if_pos rfl,intervalBucket_append,if_pos (by rw [ht]; omega)]
    · rw [if_neg (Ne.symm (slotIndex_ne_offset (Nat.pos_of_ne_zero hj0) hj)),
        intervalBucket_append_of_ne c (by rw [ht]; omega)]

/-- A call in a later interval first clears the buckets of the intervals passed, at most the
whole ring, and moves `offset` on by as many. -/
theorem Represents.add_of_later (h : Represents n start d r calls) (hd : 0 < d) {t : Int}
    (ht : lastInterval start d calls < interval start d t) :
    Represents n start d (r.add f val t) (calls ++ [(t,c)]) := by
  have hts := h.timespan hd (Int.le_of_lt ht)
  have hlast : lastInterval start d (calls ++ [(t,c)]) = interval start d t :=
    lastInterval_append start d calls (t,c)
  have hn := h.offset_lt
  -- `m` buckets are cleared: the intervals passed, or the whole ring
  obtain ⟨m,hm,hm1,hmn,hmle,hmts⟩ : ∃ m : Nat,
      (if interval start d t - lastInterval start d calls > (n : Int) then (n : Int)
        else interval start d t - lastInterval start d calls).toNat = m ∧ 1 ≤ m ∧ m ≤ n ∧
      (m : Int) ≤ interval start d t - lastInterval start d calls ∧
      (m < n → (m : Int) = interval start d t - lastInterval start d calls) :=
    ⟨_,rfl,by split <;> omega,by split <;> omega,by split <;> omega,by split <;> omega⟩
  have hadd : r.add f val t =
      { size := n, window := f (resets r.window r.offset n m).1 (resets r.window r.offset n m).2 val,
        offset := (resets r.window r.offset n m).2, bucketDuration := r.bucketDuration,
        lastAppendTime := r.lastAppendTime +
          (interval start d t - lastInterval start d calls) * r.bucketDuration } := by
    unfold RollingPolicy.add
    dsimp only
    rw [hts,if_pos (by omega),h.size_eq,hm]
    rfl
  rw [hadd]
  have hget := fun p (hp : p < n) => resets_getElem? (m := m) h.length_window h.offset_lt hp
  have hoff := resets_offset (w := r.window) h.offset_lt hmn hm1
  have hlen := resets_length (w := r.window) (o := r.offset) (n := n) (m := m)
  generalize resets r.window r.offset n m = sec at hget hoff hlen
  refine ⟨rfl,?_,?_,h.bucketDuration_eq,?_,interval_le_append c h (Int.le_of_lt ht),?_⟩
  · rw [hf,List.length_modify,hlen]
    exact h.length_window
  · show sec.2 < n
    rw [hoff]
    split <;> omega
  · show r.lastAppendTime + (interval start d t - lastInterval start d calls) * r.bucketDuration =
      start + lastInterval start d (calls ++ [(t,c)]) * d
    rw [h.lastAppendTime_eq,h.bucketDuration_eq,hlast,Int.sub_mul]
    omega
  · intro j hj
    have hp := slotIndex_lt (o := sec.2) (by rw [hoff]; split <;> omega) hj
    obtain ⟨hcleared,hkept⟩ := slotIndex_advance h.offset_lt hmn hj
    rw [← hoff] at hcleared hkept
    show (f sec.1 sec.2 val).window[slotIndex n sec.2 j]? = _
    rw [hf,hlast]
    by_cases hjm : j < m
    · -- the buckets passed are cleared, and the newest takes the write
      rw [getElem?_modify_of_some (b := .empty) (by rw [hget _ hp,if_pos (hcleared.mpr hjm)])]
      by_cases hj0 : j = 0
      · subst hj0
        rw [slotIndex_zero,if_pos rfl,Int.natCast_zero,Int.sub_zero,intervalBucket_append,if_pos rfl,
          intervalBucket_of_lt start d h.interval_le ht]
      · rw [if_neg (Ne.symm (slotIndex_ne_offset (Nat.pos_of_ne_zero hj0) hj)),
          intervalBucket_append_of_ne c (by omega),
          intervalBucket_of_lt start d h.interval_le (by omega)]
    · -- the others are the old slots, `m` further back
      have hmj : m ≤ j := Nat.le_of_not_lt hjm
      have hold := h.slot (j - m) (by omega)
      rw [← hkept hmj] at hold
      rw [getElem?_modify_of_some (by rw [hget _ hp,if_neg (fun hc => hjm (hcleared.mp hc))]; exact hold),
        if_neg (Ne.symm (slotIndex_ne_offset (by omega) hj)),
        intervalBucket_append_of_ne c (by omega)]
      congr 2
      have := hmts (by omega)
      omega

theorem Represents.add (h : Represents n start d r calls) (hd : 0 < d) {t : Int}
    (ht : lastInterval start d calls ≤ interval start d t) :
    Represents n start d (r.add f val t) (calls ++ [(t,c)]) :=
  (Int.lt_or_eq_of_le ht).elim (h.add_of_later hf hd) fun he => h.add_of_same hf hd he.symm

end Step

theorem Represents.applyCall (h : Represents n start d r calls) (hd : 0 < d) (c : Call α) {t : Int}
    (ht : lastInterval start d calls ≤ interval start d t) :
    Represents n start d (applyCall r c t) (calls ++ [(t,c)]) := by
  cases c with
  | add val => exact h.add (c := .add val) (fun _ _ => rfl) hd ht
  | append val => exact h.add (c := .append val) (fun _ _ => rfl) hd ht

omit [Add α] in
/-- A time no earlier than the start and than every call is in an interval no earlier than the
last call's. -/
theorem lastInterval_le_of_le (hd : 0 < d) {t : Int} (hstart : start ≤ t)
    (hcalls : ∀ c ∈ calls, c.1 ≤ t) : lastInterval start d calls ≤ interval start d t := by
  unfold lastInterval
  cases hl : calls.getLast? with
  | none => exact Int.ediv_nonneg (by omega) (Int.le_of_lt hd)
  | some c' =>
    exact Int.ediv_le_ediv hd (by have := hcalls c' (List.mem_of_getLast? hl); omega)

theorem represents_run (hn : 0 < n) (hd : 0 < d) (start : Int) (calls : List (Int × Call α))
    (htime : (start :: calls.map Prod.fst).Pairwise (· ≤ ·)) :
    Represents n start d (runCalls (NewRollingPolicy (NewWindow n) d start) calls) calls := by
  induction calls using List.reverseRecOn with
  | nil => exact represents_new hn d start
  | append_singleton calls c ih =>
    rw [List.map_append,List.pairwise_cons,List.pairwise_append] at htime
    obtain ⟨hstart,hpre,-,hlast⟩ := htime
    have hprefix : (start :: calls.map Prod.fst).Pairwise (· ≤ ·) :=
      List.pairwise_cons.mpr ⟨fun t ht => hstart t (List.mem_append_left _ ht),hpre⟩
    have ht : lastInterval start d calls ≤ interval start d c.1 :=
      lastInterval_le_of_le hd (hstart c.1 (by simp))
        fun c' hc' => hlast c'.1 (List.mem_map_of_mem hc') c.1 (by simp)
    rw [runCalls,List.foldl_append]
    exact (ih hprefix).applyCall hd c.2 ht

/-- The `i`-th bucket `Reduce` copies, from the one after the `ts` skipped, is the slot
`count - 1 - i` back from `offset`. -/
theorem reduce_index {n o ts i : Nat} (ho : o < n) (hts : ts < n) (hi : i < n - ts) :
    ((if o + ts + 1 ≥ n then o + ts + 1 - n else o + ts + 1) + i) % n =
      slotIndex n o (n - ts - 1 - i) := by
  unfold slotIndex
  by_cases hlt : (if o + ts + 1 ≥ n then o + ts + 1 - n else o + ts + 1) + i < n
  · rw [Nat.mod_eq_of_lt hlt]
    split_ifs at hlt ⊢ <;> omega
  · rw [Nat.mod_eq_sub_mod (by omega),Nat.mod_eq_of_lt (by split_ifs at hlt ⊢ <;> omega)]
    split_ifs at hlt ⊢ <;> omega

theorem Represents.reduce [Zero α] (h : Represents n start d r calls) (hd : 0 < d) {now : Int}
    (hnow : lastInterval start d calls ≤ interval start d now) (f : Iterator α → α) :
    r.Reduce now f = reduceSpec start d n calls now f := by
  have hts := h.timespan hd hnow
  have ho := h.offset_lt
  unfold RollingPolicy.Reduce reduceSpec
  dsimp only
  rw [hts,h.size_eq]
  by_cases hlt : interval start d now - lastInterval start d calls < n
  · rw [if_pos (by omega),if_pos hlt]
    unfold windowBuckets
    dsimp only
    rw [show ((n : Int) - (interval start d now - lastInterval start d calls)).toNat =
      n - (interval start d now - lastInterval start d calls).toNat by omega]
    congr 2
    apply List.map_congr_left
    intro i hi
    rw [List.mem_range] at hi
    rw [reduce_index ho (by omega) hi]
    unfold Window.Bucket
    rw [h.slot _ (by omega),Option.getD_some]
    show intervalBucket start d calls _ = _
    congr 1
    omega
  · rw [if_neg (by omega),if_neg hlt]

/-- `RollingPolicy` refines the timestamped model: from its creation at `start`, after every
run of `Add` and `Append` calls in time order, its ring holds the buckets of the last `size`
intervals, newest at `offset`; `Reduce` at any later time gives the reducer an iterator of the
buckets of the intervals from `size` before now's up to the last call's, oldest first, or is
zero when there are none. -/
theorem rollingPolicy_refines [Zero α] (hn : 0 < n) (hd : 0 < d) (start now : Int)
    (calls : List (Int × Call α)) (htime : (start :: (calls.map Prod.fst ++ [now])).Pairwise (· ≤ ·))
    (f : Iterator α → α) :
    Represents n start d (runCalls (NewRollingPolicy (NewWindow n) d start) calls) calls ∧
      (runCalls (NewRollingPolicy (NewWindow n) d start) calls).Reduce now f =
        reduceSpec start d n calls now f ∧
      (Iterator.ofBuckets (windowBuckets start d n calls now)).visit
          (n - (interval start d now - lastInterval start d calls).toNat) =
        windowBuckets start d n calls now := by
  rw [List.pairwise_cons,List.pairwise_append] at htime
  obtain ⟨hstart,hpre,-,hnow⟩ := htime
  have hrun := represents_run hn hd start calls
    (List.pairwise_cons.mpr ⟨fun t ht => hstart t (List.mem_append_left _ ht),hpre⟩)
  have hlast : lastInterval start d calls ≤ interval start d now :=
    lastInterval_le_of_le hd (hstart now (by simp))
      fun c hc => hnow c.1 (List.mem_map_of_mem hc) now (by simp)
  refine ⟨hrun,hrun.reduce hd hlast f,?_⟩
  rw [← length_windowBuckets]
  exact visit_ofBuckets _

/-- A counter of three buckets of two nanoseconds: `Add(1)` at 0, `Append(2)` at 3, `Add(4)` at
7 and `Reduce` at 8, when the window is the intervals 2 and 3. -/
theorem rollingPolicy_refines_run :
    (0 < 3 ∧ (0 : Int) < 2 ∧
      ((0 : Int) :: ([(0,Call.add (1 : Int)),(3,.append 2),(7,.add 4)].map Prod.fst ++ [8])).Pairwise (· ≤ ·)) ∧
    Represents 3 0 2 (runCalls (NewRollingPolicy (NewWindow 3) 2 0) [(0,Call.add (1 : Int)),(3,.append 2),(7,.add 4)]) [(0,Call.add (1 : Int)),(3,.append 2),(7,.add 4)] ∧
      (runCalls (NewRollingPolicy (NewWindow 3) 2 0) [(0,Call.add (1 : Int)),(3,.append 2),(7,.add 4)]).Reduce 8 (fun _ => 0) = reduceSpec 0 2 3 [(0,Call.add (1 : Int)),(3,.append 2),(7,.add 4)] 8 (fun _ => 0) ∧
      (Iterator.ofBuckets (windowBuckets 0 2 3 [(0,Call.add (1 : Int)),(3,.append 2),(7,.add 4)] 8)).visit
          (3 - (interval 0 2 8 - lastInterval 0 2 [(0,Call.add (1 : Int)),(3,.append 2),(7,.add 4)]).toNat) =
        windowBuckets 0 2 3 [(0,Call.add (1 : Int)),(3,.append 2),(7,.add 4)] 8 := by
  have htime : ((0 : Int) :: ([(0,Call.add (1 : Int)),(3,.append 2),(7,.add 4)].map Prod.fst ++ [8])).Pairwise (· ≤ ·) := by decide
  exact ⟨⟨by decide,by decide,htime⟩,rollingPolicy_refines (by decide) (by decide) 0 8 _ htime _⟩

/-- There the reducer sees the empty bucket of interval 2 and the one call of interval 3. -/
example : (runCalls (NewRollingPolicy (NewWindow 3) 2 0) [(0,Call.add (1 : Int)),(3,.append 2),(7,.add 4)]).Reduce 8
    (fun it => ((it.visit 2).map fun b => (b.Count : Int)).sum) = 1 := by decide +kernel

end Model

end Gkit.Stat
