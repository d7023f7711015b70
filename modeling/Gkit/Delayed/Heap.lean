import Gkit.Delayed.Delayed
import Mathlib

/-!
The heap invariant of `DispatchingDelayed`: every task is no earlier than its parent
`(k - 1) / 4`, and every task's time is positive. The sifts are proved through the hole
they carry: the pairs away from the hole are in order, and the hole's neighbours are in the
order the direction of the sift needs (`UpHole`, `DownHole`). A sift only ever swaps the
hole with one of its neighbours in the slice with the task written back, so the tasks are
a permutation of those before.
-/

namespace Gkit.Delayed

variable {τ : Type} (execTime : τ → Int)

/-! ### Slots -/

/-- The tasks of the first `n` slots. -/
def slots (g : Nat → τ) (n : Nat) : List τ := (List.range n).map g

/-- The tasks of the heap, by index. -/
def Delays.contents (d : Delays τ) : List τ := slots d.get d.len

theorem range_map_swap {n i j : Nat} (hi : i < n) (hj : j < n) :
    ((List.range n).map (Equiv.swap i j)).Perm (List.range n) := by
  refine (List.perm_ext_iff_of_nodup ((List.nodup_range).map (Equiv.injective _))
    List.nodup_range).mpr fun a => ?_
  simp only [List.mem_map,List.mem_range]
  constructor
  · rintro ⟨b,hb,rfl⟩
    rw [Equiv.swap_apply_def]
    split_ifs <;> omega
  · intro ha
    refine ⟨Equiv.swap i j a,?_,Equiv.swap_apply_self i j a⟩
    rw [Equiv.swap_apply_def]
    split_ifs <;> omega

theorem slots_swap (g : Nat → τ) {n i j : Nat} (hi : i < n) (hj : j < n) :
    (slots (g ∘ Equiv.swap i j) n).Perm (slots g n) := by
  unfold slots
  rw [← List.map_map]
  exact (range_map_swap hi hj).map g

/-- A move of the sift: the neighbour `p` fills the hole `h`, and the moving task `x` is
thought of at `p`. -/
theorem update_move (g : Nat → τ) (x : τ) {h p : Nat} (hne : p ≠ h) :
    Function.update (Function.update g h (g p)) p x = Function.update g h x ∘ Equiv.swap h p := by
  funext k
  rw [Function.comp_apply]
  by_cases hkp : k = p
  · subst hkp
    rw [Equiv.swap_apply_right,Function.update_self,Function.update_self]
  · by_cases hkh : k = h
    · subst hkh
      rw [Equiv.swap_apply_left,Function.update_of_ne hkp,Function.update_self,
        Function.update_of_ne hne]
    · rw [Equiv.swap_apply_of_ne_of_ne hkh hkp,Function.update_of_ne hkp,Function.update_of_ne hkh,
        Function.update_of_ne hkh]

theorem slots_congr {g g' : Nat → τ} {n : Nat} (h : ∀ k < n, g' k = g k) : slots g' n = slots g n :=
  List.map_congr_left fun k hk => h k (List.mem_range.mp hk)

theorem slots_succ (g : Nat → τ) (n : Nat) : slots g (n + 1) = slots g n ++ [g n] := by
  simp [slots,List.range_succ]

/-! ### The order -/

/-- Every task in the first `n` slots is no earlier than its parent. -/
def HeapOrder (g : Nat → τ) (n : Nat) : Prop :=
  ∀ k, 0 < k → k < n → execTime (g ((k - 1) / 4)) ≤ execTime (g k)

/-- The invariant of the task heap. -/
structure Delays.Heap (d : Delays τ) : Prop where
  ordered : HeapOrder execTime d.get d.len
  positive : ∀ x ∈ d.contents, 0 < execTime x

/-- Every parent and child of which neither is the hole are in order. -/
def OrderedOff (g : Nat → τ) (n hole : Nat) : Prop :=
  ∀ k, 0 < k → k < n → k ≠ hole → (k - 1) / 4 ≠ hole → execTime (g ((k - 1) / 4)) ≤ execTime (g k)

/-- What the sift up needs around its hole, for a moving task of time `w`. -/
structure UpHole (g : Nat → τ) (n hole : Nat) (w : Int) : Prop where
  lt : hole < n
  off : OrderedOff execTime g n hole
  grand : 0 < hole → ∀ k, 0 < k → k < n → (k - 1) / 4 = hole →
    execTime (g ((hole - 1) / 4)) ≤ execTime (g k)
  below : ∀ k, 0 < k → k < n → (k - 1) / 4 = hole → w ≤ execTime (g k)

/-- What the sift down needs around its hole, for a moving task of time `w`. -/
structure DownHole (g : Nat → τ) (n hole : Nat) (w : Int) : Prop where
  lt : hole < n
  off : OrderedOff execTime g n hole
  above : 0 < hole → execTime (g ((hole - 1) / 4)) ≤ w
  grand : 0 < hole → ∀ k, 0 < k → k < n → (k - 1) / 4 = hole →
    execTime (g ((hole - 1) / 4)) ≤ execTime (g k)

variable {execTime}

theorem HeapOrder.off {g : Nat → τ} {n : Nat} (h : HeapOrder execTime g n) (hole : Nat) :
    OrderedOff execTime g n hole :=
  fun k hk hkn _ _ => h k hk hkn

theorem HeapOrder.root_le {g : Nat → τ} {n : Nat} (h : HeapOrder execTime g n) :
    ∀ k < n, execTime (g 0) ≤ execTime (g k) := by
  intro k
  induction k using Nat.strongRecOn with
  | ind k ih =>
    intro hk
    rcases Nat.eq_zero_or_pos k with rfl | hpos
    · exact Int.le_refl _
    · exact Int.le_trans (ih _ (by omega) (by omega)) (h k hpos hk)

/-! ### Sift up -/

section Up

variable {g : Nat → τ} {n : Nat} {w : Int}

theorem UpHole.move {hole : Nat} (o : UpHole execTime g n hole w) (h0 : 0 < hole)
    (hlt : w < execTime (g ((hole - 1) / 4))) :
    UpHole execTime (Function.update g hole (g ((hole - 1) / 4))) n ((hole - 1) / 4) w := by
  set p := (hole - 1) / 4 with hp
  have hph : p < hole := by omega
  have hpn : p < n := by have := o.lt; omega
  have hpp : 0 < p → execTime (g ((p - 1) / 4)) ≤ execTime (g p) :=
    fun hp0 => o.off p hp0 hpn (by omega) (by omega)
  have hsib : ∀ k, 0 < k → k < n → (k - 1) / 4 = p → k ≠ hole → execTime (g p) ≤ execTime (g k) :=
    fun k hk hkn hkp hkh => by
      have := o.off k hk hkn hkh (by omega)
      rwa [hkp] at this
  refine ⟨hpn,fun k hk hkn hkp hpk => ?_,fun hp0 k hk hkn hkp => ?_,fun k hk hkn hkp => ?_⟩
  · have hkh : k ≠ hole := fun e => hpk (by rw [e])
    rw [Function.update_of_ne hkh]
    by_cases hpkh : (k - 1) / 4 = hole
    · rw [hpkh,Function.update_self]
      exact o.grand h0 k hk hkn hpkh
    · rw [Function.update_of_ne hpkh]
      exact o.off k hk hkn hkh hpkh
  · rw [Function.update_of_ne (show (p - 1) / 4 ≠ hole by omega)]
    by_cases hkh : k = hole
    · rw [hkh,Function.update_self]
      exact hpp hp0
    · rw [Function.update_of_ne hkh]
      exact Int.le_trans (hpp hp0) (hsib k hk hkn hkp hkh)
  · by_cases hkh : k = hole
    · rw [hkh,Function.update_self]
      exact Int.le_of_lt hlt
    · rw [Function.update_of_ne hkh]
      exact Int.le_trans (Int.le_of_lt hlt) (hsib k hk hkn hkp hkh)

theorem UpHole.finish {hole : Nat} {x : τ} (o : UpHole execTime g n hole w) (hx : execTime x = w)
    (hstop : 0 < hole → execTime (g ((hole - 1) / 4)) ≤ w) :
    HeapOrder execTime (Function.update g hole x) n := by
  intro k hk hkn
  by_cases hkh : k = hole
  · subst hkh
    rw [Function.update_self,Function.update_of_ne (show (k - 1) / 4 ≠ k by omega),hx]
    exact hstop hk
  · rw [Function.update_of_ne hkh]
    by_cases hpk : (k - 1) / 4 = hole
    · rw [hpk,Function.update_self,hx]
      exact o.below k hk hkn hpk
    · rw [Function.update_of_ne hpk]
      exact o.off k hk hkn hkh hpk

/-- The sift-up loop ends in an ordered heap holding the tasks of the slice with the moving
task in the hole. -/
theorem siftupLoop_spec {x : τ} (hx : execTime x = w) (hole : Nat) :
    ∀ {g : Nat → τ}, UpHole execTime g n hole w →
      HeapOrder execTime (Function.update (siftupLoop execTime g w hole).1
        (siftupLoop execTime g w hole).2 x) n ∧
      (slots (Function.update (siftupLoop execTime g w hole).1 (siftupLoop execTime g w hole).2 x) n).Perm
        (slots (Function.update g hole x) n) := by
  induction hole using Nat.strongRecOn with
  | ind hole ih =>
    intro g o
    cases hole with
    | zero =>
      rw [siftupLoop]
      exact ⟨o.finish hx (fun h => absurd h (Nat.lt_irrefl 0)),List.Perm.refl _⟩
    | succ i =>
      have hpar : (i + 1 - 1) / 4 = i / 4 := by omega
      rw [siftupLoop]
      split_ifs with hge
      · exact ⟨o.finish hx (fun _ => by rw [hpar]; exact hge),List.Perm.refl _⟩
      · -- the parent comes down into the hole, and the hole goes up
        have hlt : w < execTime (g ((i + 1 - 1) / 4)) := by rw [hpar]; omega
        have o' := o.move (Nat.succ_pos i) hlt
        rw [hpar] at o'
        obtain ⟨hord,hperm⟩ := ih (i / 4) (by omega) o'
        refine ⟨hord,hperm.trans ?_⟩
        rw [update_move g x (show i / 4 ≠ i + 1 by omega)]
        exact slots_swap _ o.lt (by have := o.lt; omega)

end Up

/-! ### Sift down -/

section Down

variable {g : Nat → τ} {n : Nat} {w : Int}

theorem minChild_time {i : Nat} :
    (minChild execTime g n i).2 = execTime (g (minChild execTime g n i).1) := by
  unfold minChild
  dsimp only
  split_ifs <;> rfl

theorem minChild_le {i : Nat} :
    ∀ k, i * 4 + 1 ≤ k → k ≤ i * 4 + 4 → k < n → (minChild execTime g n i).2 ≤ execTime (g k) := by
  intro k hk1 hk4 hkn
  obtain rfl | rfl | rfl | rfl :
      k = i * 4 + 1 ∨ k = i * 4 + 1 + 1 ∨ k = i * 4 + 1 + 2 ∨ k = i * 4 + 1 + 2 + 1 := by omega
  all_goals
    unfold minChild
    dsimp only
    split_ifs <;> omega

/-- A move of the sift down keeps what it needs, one level lower. -/
theorem DownHole.move {hole : Nat} (o : DownHole execTime g n hole w) (hf : hole * 4 + 1 < n)
    (hlt : (minChild execTime g n hole).2 < w) :
    DownHole execTime (Function.update g hole (g (minChild execTime g n hole).1)) n
      (minChild execTime g n hole).1 w := by
  set c := (minChild execTime g n hole).1 with hc
  obtain ⟨hc1,hc4,hcn⟩ := minChild_bounds execTime g hf
  rw [← hc] at hc1 hc4 hcn
  have hcp : (c - 1) / 4 = hole := by omega
  have htime : (minChild execTime g n hole).2 = execTime (g c) := minChild_time
  have hmin : ∀ k, 0 < k → k < n → (k - 1) / 4 = hole → execTime (g c) ≤ execTime (g k) :=
    fun k _ hkn hkp => htime ▸ minChild_le k (by omega) (by omega) hkn
  refine ⟨hcn,fun k hk hkn hkc hpk => ?_,fun _ => ?_,fun _ k hk hkn hkp => ?_⟩
  · by_cases hkh : k = hole
    · subst hkh
      rw [Function.update_self,Function.update_of_ne (show (k - 1) / 4 ≠ k by omega)]
      exact o.grand hk c (by omega) hcn hcp
    · rw [Function.update_of_ne hkh]
      by_cases hph : (k - 1) / 4 = hole
      · rw [hph,Function.update_self]
        exact hmin k hk hkn hph
      · rw [Function.update_of_ne hph]
        exact o.off k hk hkn hkh hph
  · rw [hcp,Function.update_self,← htime]
    exact Int.le_of_lt hlt
  · rw [hcp,Function.update_self,Function.update_of_ne (show k ≠ hole by omega)]
    have := o.off k hk hkn (by omega) (by omega)
    rwa [hkp] at this

theorem DownHole.finish {hole : Nat} {x : τ} (o : DownHole execTime g n hole w) (hx : execTime x = w)
    (hstop : ∀ k, 0 < k → k < n → (k - 1) / 4 = hole → w ≤ execTime (g k)) :
    HeapOrder execTime (Function.update g hole x) n := by
  intro k hk hkn
  by_cases hkh : k = hole
  · subst hkh
    rw [Function.update_self,Function.update_of_ne (show (k - 1) / 4 ≠ k by omega),hx]
    exact o.above hk
  · rw [Function.update_of_ne hkh]
    by_cases hpk : (k - 1) / 4 = hole
    · rw [hpk,Function.update_self,hx]
      exact hstop k hk hkn hpk
    · rw [Function.update_of_ne hpk]
      exact o.off k hk hkn hkh hpk

/-- The sift-down loop ends in an ordered heap holding the tasks of the slice with the
moving task in the hole. -/
theorem siftdownLoop_spec {x : τ} (hx : execTime x = w) (hole : Nat) :
    ∀ {g : Nat → τ}, DownHole execTime g n hole w →
      HeapOrder execTime (Function.update (siftdownLoop execTime g n w hole).1
        (siftdownLoop execTime g n w hole).2 x) n ∧
      (slots (Function.update (siftdownLoop execTime g n w hole).1
        (siftdownLoop execTime g n w hole).2 x) n).Perm (slots (Function.update g hole x) n) := by
  -- the loop goes down, so the induction is on how far the hole is from the end
  suffices key : ∀ m hole, n - hole = m → ∀ {g : Nat → τ}, DownHole execTime g n hole w →
      HeapOrder execTime (Function.update (siftdownLoop execTime g n w hole).1
        (siftdownLoop execTime g n w hole).2 x) n ∧
      (slots (Function.update (siftdownLoop execTime g n w hole).1
        (siftdownLoop execTime g n w hole).2 x) n).Perm (slots (Function.update g hole x) n) from
    fun {_} o => key _ hole rfl o
  intro m
  induction m using Nat.strongRecOn with
  | ind m ih =>
    intro hole hm g o
    rw [siftdownLoop]
    split_ifs with hf hge
    · -- no child: the task goes into the hole
      exact ⟨o.finish hx (fun k _ hkn hkp => absurd hkn (by omega)),List.Perm.refl _⟩
    · -- no child is earlier than the task
      exact ⟨o.finish hx (fun k _ hkn hkp =>
        Int.le_trans hge (minChild_le k (by omega) (by omega) hkn)),List.Perm.refl _⟩
    · -- the earliest child comes up into the hole, and the hole goes down
      have hf' : hole * 4 + 1 < n := by omega
      obtain ⟨hc1,-,hcn⟩ := minChild_bounds execTime g hf'
      obtain ⟨hord,hperm⟩ := ih (n - (minChild execTime g n hole).1) (by omega) _ rfl
        (o.move hf' (by omega))
      refine ⟨hord,hperm.trans ?_⟩
      rw [update_move g x (show (minChild execTime g n hole).1 ≠ hole by omega)]
      exact slots_swap _ o.lt hcn

end Down

/-! ### The sifts -/

section Sifts

variable {d : Delays τ} {i : Nat}

theorem siftupDelayed_spec (hi : i < d.len) (hpos : 0 < execTime (d.get i))
    (o : UpHole execTime d.get d.len i (execTime (d.get i))) :
    HeapOrder execTime (siftupDelayed execTime d i).1.get d.len ∧
      (siftupDelayed execTime d i).1.len = d.len ∧
      ((siftupDelayed execTime d i).1.contents).Perm d.contents := by
  unfold siftupDelayed
  rw [if_neg (by omega),if_neg (by omega)]
  obtain ⟨hord,hperm⟩ := siftupLoop_spec rfl i o
  rw [Function.update_eq_self] at hperm
  exact ⟨hord,rfl,hperm⟩

theorem siftupDelayed_stay (hi : i < d.len)
    (hstop : 0 < i → execTime (d.get ((i - 1) / 4)) ≤ execTime (d.get i)) :
    (siftupDelayed execTime d i).1 = d := by
  unfold siftupDelayed
  rw [if_neg (by omega)]
  dsimp only
  split_ifs
  · rfl
  · cases i with
    | zero => simp [siftupLoop]
    | succ j =>
      have hstop' : execTime (d.get (j / 4)) ≤ execTime (d.get (j + 1)) := by
        have := hstop (Nat.succ_pos j)
        rwa [show (j + 1 - 1) / 4 = j / 4 by omega] at this
      rw [siftupLoop,if_pos hstop']
      simp

theorem siftdownDelayed_spec (hi : i < d.len) (hpos : 0 < execTime (d.get i))
    (o : DownHole execTime d.get d.len i (execTime (d.get i))) :
    HeapOrder execTime (siftdownDelayed execTime d i).get d.len ∧
      (siftdownDelayed execTime d i).len = d.len ∧
      ((siftdownDelayed execTime d i).contents).Perm d.contents := by
  unfold siftdownDelayed
  rw [if_neg (by omega),if_neg (by omega)]
  obtain ⟨hord,hperm⟩ := siftdownLoop_spec rfl i o
  rw [Function.update_eq_self] at hperm
  exact ⟨hord,rfl,hperm⟩

theorem siftdownDelayed_of_ordered (h : HeapOrder execTime d.get d.len) :
    siftdownDelayed execTime d i = d := by
  unfold siftdownDelayed
  dsimp only
  split_ifs with hi hw
  · rfl
  · rfl
  · -- every child is at least as late as the task at `i`
    have hloop : siftdownLoop execTime d.get d.len (execTime (d.get i)) i = (d.get,i) := by
      rw [siftdownLoop]
      split_ifs with hf hge
      · rfl
      · rfl
      · exfalso
        have hf' : i * 4 + 1 < d.len := by omega
        obtain ⟨hc1,hc4,hcn⟩ := minChild_bounds execTime d.get hf'
        have ht : (minChild execTime d.get d.len i).2 =
            execTime (d.get (minChild execTime d.get d.len i).1) := minChild_time
        have := h _ (by omega) hcn
        rw [show ((minChild execTime d.get d.len i).1 - 1) / 4 = i by omega,← ht] at this
        omega
    simp [hloop]

end Sifts

/-! ### Removal -/

section Remove

variable {g : Nat → τ} {last i : Nat}

theorem Delays.get_mem_contents {d : Delays τ} {k : Nat} (hk : k < d.len) : d.get k ∈ d.contents :=
  List.mem_map.mpr ⟨k,List.mem_range.mpr hk,rfl⟩

theorem slots_fill (g : Nat → τ) (hi : i < last) :
    (slots (Function.update g i (g last)) last ++ [g i]).Perm (slots g (last + 1)) := by
  have hagree : slots (Function.update g i (g last)) last = slots (g ∘ Equiv.swap i last) last :=
    slots_congr fun k hk => by
      rw [Function.comp_apply]
      by_cases hki : k = i
      · rw [hki,Equiv.swap_apply_left,Function.update_self]
      · rw [Equiv.swap_apply_of_ne_of_ne hki (by omega),Function.update_of_ne hki]
  have hswap := slots_swap g (show i < last + 1 by omega) (Nat.lt_succ_self last)
  rw [slots_succ (g ∘ Equiv.swap i last) last,Function.comp_apply,Equiv.swap_apply_right,
    ← hagree] at hswap
  exact hswap

theorem HeapOrder.fill_off (h : HeapOrder execTime g (last + 1)) :
    OrderedOff execTime (Function.update g i (g last)) last i := by
  intro k hk hkl hki hpi
  rw [Function.update_of_ne hki,Function.update_of_ne hpi]
  exact h k hk (by omega)

/-- After the last task fills slot `i`, the children of `i` are no earlier than the task
that was there. -/
theorem HeapOrder.fill_child (h : HeapOrder execTime g (last + 1)) :
    ∀ k, 0 < k → k < last → (k - 1) / 4 = i →
      execTime (g i) ≤ execTime (Function.update g i (g last) k) := by
  intro k hk hkl hki
  rw [Function.update_of_ne (show k ≠ i by omega)]
  have := h k hk (by omega)
  rwa [hki] at this

theorem HeapOrder.fill_grand (h : HeapOrder execTime g (last + 1)) (h0 : 0 < i) :
    ∀ k, 0 < k → k < last → (k - 1) / 4 = i →
      execTime (Function.update g i (g last) ((i - 1) / 4)) ≤
        execTime (Function.update g i (g last) k) := by
  intro k hk hkl hki
  rw [Function.update_of_ne (show (i - 1) / 4 ≠ i by omega)]
  exact Int.le_trans (h i h0 (by omega)) (h.fill_child k hk hkl hki)

/-- What is left of a heap after one of its tasks is taken out is a heap once it is in
order. -/
theorem Delays.Heap.of_removed {d r : Delays τ} {y : τ} (h : d.Heap execTime)
    (hord : HeapOrder execTime r.get r.len) (hperm : (r.contents ++ [y]).Perm d.contents) :
    r.Heap execTime :=
  ⟨hord,fun z hz => h.positive z (hperm.subset (List.mem_append_left _ hz))⟩

end Remove

/-! ### The calls -/

section Calls

variable {d : Delays τ}

theorem Delays.Heap.add (h : d.Heap execTime) (x : τ) :
    (AddDelayed execTime d x).Heap execTime ∧
      (AddDelayed execTime d x).contents.Perm (d.contents ++ if execTime x ≤ 0 then [] else [x]) := by
  unfold AddDelayed
  by_cases hx : execTime x ≤ 0
  · rw [if_pos hx,if_pos hx,List.append_nil]
    exact ⟨h,List.Perm.refl _⟩
  · rw [if_neg hx,if_neg hx]
    have o : UpHole execTime (Function.update d.get d.len x) (d.len + 1) d.len
        (execTime (Function.update d.get d.len x d.len)) := by
      rw [Function.update_self]
      refine ⟨Nat.lt_succ_self _,fun k hk hkn hkh hpk => ?_,fun _ k hk hkn hkp => by omega,
        fun k hk hkn hkp => by omega⟩
      rw [Function.update_of_ne hkh,Function.update_of_ne hpk]
      exact h.ordered k hk (by omega)
    obtain ⟨hord,hlen,hperm⟩ := siftupDelayed_spec (d := ⟨Function.update d.get d.len x,d.len + 1⟩)
      (Nat.lt_succ_self _)
      (show 0 < execTime (Function.update d.get d.len x d.len) by rw [Function.update_self]; omega) o
    have hslots : slots (Function.update d.get d.len x) (d.len + 1) = d.contents ++ [x] := by
      rw [slots_succ,Function.update_self,
        slots_congr fun k hk => Function.update_of_ne (Nat.ne_of_lt hk) x d.get]
      rfl
    have hperm' := hperm.trans (List.Perm.of_eq hslots)
    refine ⟨⟨by rw [hlen]; exact hord,fun y hy => ?_⟩,hperm'⟩
    rcases List.mem_append.mp (hperm'.subset hy) with hy | hy
    · exact h.positive y hy
    · rw [List.mem_singleton.mp hy]
      omega

theorem delDelayed_of_le {i : Nat} (hi : d.len ≤ i) : delDelayed execTime d i = (d,none) := by
  unfold delDelayed
  rw [if_pos hi]

theorem Delays.Heap.del (h : d.Heap execTime) {i : Nat} (hi : i < d.len) :
    (delDelayed execTime d i).1.Heap execTime ∧ (delDelayed execTime d i).2 = some (d.get i) ∧
      ((delDelayed execTime d i).1.contents ++ [d.get i]).Perm d.contents := by
  obtain ⟨last,hlast⟩ : ∃ last, d.len = last + 1 := ⟨d.len - 1,by omega⟩
  have hord : HeapOrder execTime d.get (last + 1) := hlast ▸ h.ordered
  have hc : d.contents = slots d.get (last + 1) := by rw [Delays.contents,hlast]
  unfold delDelayed
  rw [if_neg (by omega)]
  dsimp only
  rw [show d.len - 1 = last by omega]
  by_cases hil : i = last
  · -- the last task goes and nothing moves
    subst hil
    have hne : ¬i ≠ i := fun hne => hne rfl
    rw [if_neg hne,if_neg hne]
    have hperm : (slots d.get i ++ [d.get i]).Perm d.contents := by rw [hc,slots_succ]
    exact ⟨h.of_removed (fun k hk hki => hord k hk (Nat.lt_succ_of_lt hki)) hperm,rfl,hperm⟩
  · rw [if_pos hil,if_pos hil]
    have hit : i < last := by omega
    have hw : 0 < execTime (Function.update d.get i (d.get last) i) := by
      rw [Function.update_self]
      exact h.positive _ (Delays.get_mem_contents (by omega))
    have hperm₀ : (slots (Function.update d.get i (d.get last)) last ++ [d.get i]).Perm d.contents :=
      hc ▸ slots_fill d.get hit
    -- the task that fills slot `i` goes up or down, never both
    by_cases hmove : 0 < i ∧ execTime (Function.update d.get i (d.get last) i) <
        execTime (Function.update d.get i (d.get last) ((i - 1) / 4))
    · have o : UpHole execTime (Function.update d.get i (d.get last)) last i
          (execTime (Function.update d.get i (d.get last) i)) := by
        refine ⟨hit,hord.fill_off,hord.fill_grand,fun k hk hkl hkp => ?_⟩
        have hpar := hmove.2
        rw [Function.update_of_ne (show (i - 1) / 4 ≠ i by omega)] at hpar
        exact Int.le_trans (Int.le_of_lt hpar)
          (Int.le_trans (hord i hmove.1 (by omega)) (hord.fill_child k hk hkl hkp))
      obtain ⟨hup,hlen,hperm⟩ :=
        siftupDelayed_spec (d := ⟨Function.update d.get i (d.get last),last⟩) hit hw o
      rw [siftdownDelayed_of_ordered (by rw [hlen]; exact hup)]
      have hperm' := hperm.append_right [d.get i] |>.trans hperm₀
      exact ⟨h.of_removed (by rw [hlen]; exact hup) hperm',rfl,hperm'⟩
    · have hstay := siftupDelayed_stay (d := ⟨Function.update d.get i (d.get last),last⟩) hit
        (fun h0 => Int.not_lt.mp fun hlt => hmove ⟨h0,hlt⟩)
      rw [hstay]
      have o : DownHole execTime (Function.update d.get i (d.get last)) last i
          (execTime (Function.update d.get i (d.get last) i)) :=
        ⟨hit,hord.fill_off,fun h0 => Int.not_lt.mp fun hlt => hmove ⟨h0,hlt⟩,hord.fill_grand⟩
      obtain ⟨hdown,hlen,hperm⟩ :=
        siftdownDelayed_spec (d := ⟨Function.update d.get i (d.get last),last⟩) hit hw o
      have hperm' := hperm.append_right [d.get i] |>.trans hperm₀
      exact ⟨h.of_removed (by rw [hlen]; exact hdown) hperm',rfl,hperm'⟩

theorem delDelayedTop_of_empty (hn : d.len = 0) : delDelayedTop execTime d = (d,none) := by
  unfold delDelayedTop
  rw [if_pos hn]

theorem Delays.Heap.delTop (h : d.Heap execTime) (hn : d.len ≠ 0) :
    (delDelayedTop execTime d).1.Heap execTime ∧ (delDelayedTop execTime d).2 = some (d.get 0) ∧
      ((delDelayedTop execTime d).1.contents ++ [d.get 0]).Perm d.contents := by
  obtain ⟨last,hlast⟩ : ∃ last, d.len = last + 1 := ⟨d.len - 1,by omega⟩
  have hord : HeapOrder execTime d.get (last + 1) := hlast ▸ h.ordered
  have hc : d.contents = slots d.get (last + 1) := by rw [Delays.contents,hlast]
  unfold delDelayedTop
  rw [if_neg hn]
  dsimp only
  rw [show d.len - 1 = last by omega]
  by_cases h0 : last > 0
  · rw [if_pos h0,if_pos h0]
    have hw : 0 < execTime (Function.update d.get 0 (d.get last) 0) := by
      rw [Function.update_self]
      exact h.positive _ (Delays.get_mem_contents (by omega))
    have o : DownHole execTime (Function.update d.get 0 (d.get last)) last 0
        (execTime (Function.update d.get 0 (d.get last) 0)) :=
      ⟨h0,hord.fill_off,fun h0 => absurd h0 (Nat.lt_irrefl 0),fun h0 => absurd h0 (Nat.lt_irrefl 0)⟩
    obtain ⟨hdown,hlen,hperm⟩ :=
      siftdownDelayed_spec (d := ⟨Function.update d.get 0 (d.get last),last⟩) h0 hw o
    have hperm' := hperm.append_right [d.get 0] |>.trans (hc ▸ slots_fill d.get h0)
    exact ⟨h.of_removed (by rw [hlen]; exact hdown) hperm',rfl,hperm'⟩
  · rw [if_neg h0,if_neg h0]
    have hperm : (slots d.get last ++ [d.get 0]).Perm d.contents := by
      rw [hc,slots_succ,show last = 0 by omega]
    exact ⟨h.of_removed (fun k hk hkl => absurd (show k < last from hkl) (by omega)) hperm,rfl,
      hperm⟩

/-- `popIfReady` pops as `delDelayedTop` does when the top is due, and leaves the heap as it
is otherwise. -/
theorem popIfReady_eq (now : Int) :
    popIfReady execTime d now =
      if d.len = 0 ∨ now < execTime (d.get 0) then (d,none) else delDelayedTop execTime d := by
  unfold popIfReady delDelayedTop
  by_cases h0 : d.len = 0
  · rw [if_pos h0,if_pos (Or.inl h0)]
  · by_cases hnow : now < execTime (d.get 0)
    · rw [if_neg h0,if_pos hnow,if_pos (Or.inr hnow)]
    · rw [if_neg h0,if_neg hnow,if_neg (by omega),if_neg h0]

end Calls

/-! ### Runs -/

variable (execTime)

/-- The task a call takes in: the one `AddDelayed` keeps. -/
def taken : DelayedOp τ → List τ
  | .addDelayed x => if execTime x ≤ 0 then [] else [x]
  | _ => []

/-- The task a call returns. -/
def returned (d : Delays τ) (op : DelayedOp τ) : List τ := (dispatch execTime d op).2.toList

variable {execTime}

/-- One call keeps the heap, and the tasks after it with the one it returned are the tasks
before it with the one it took in. -/
theorem Delays.Heap.step {d : Delays τ} (h : d.Heap execTime) (op : DelayedOp τ) :
    (delayedStep execTime d op).Heap execTime ∧
      ((delayedStep execTime d op).contents ++ returned execTime d op).Perm
        (d.contents ++ taken execTime op) := by
  unfold delayedStep returned
  cases op with
  | addDelayed x =>
    obtain ⟨h',hperm⟩ := h.add x
    exact ⟨h',by simpa only [dispatch,taken,Option.toList_none,List.append_nil] using hperm⟩
  | delDelayed i =>
    simp only [dispatch,taken,List.append_nil]
    by_cases hi : i < d.len
    · obtain ⟨h',hret,hperm⟩ := h.del hi
      rw [hret,Option.toList_some]
      exact ⟨h',hperm⟩
    · rw [delDelayed_of_le (by omega),Option.toList_none,List.append_nil]
      exact ⟨h,List.Perm.refl _⟩
  | delDelayedTop =>
    simp only [dispatch,taken,List.append_nil]
    by_cases hn : d.len = 0
    · rw [delDelayedTop_of_empty hn,Option.toList_none,List.append_nil]
      exact ⟨h,List.Perm.refl _⟩
    · obtain ⟨h',hret,hperm⟩ := h.delTop hn
      rw [hret,Option.toList_some]
      exact ⟨h',hperm⟩
  | popIfReady now =>
    simp only [dispatch,taken,List.append_nil,popIfReady_eq]
    split_ifs with hnow
    · rw [Option.toList_none,List.append_nil]
      exact ⟨h,List.Perm.refl _⟩
    · obtain ⟨h',hret,hperm⟩ := h.delTop (by omega)
      rw [hret,Option.toList_some]
      exact ⟨h',hperm⟩

theorem Delays.empty_heap {g : Nat → τ} : (Delays.empty g).Heap execTime :=
  ⟨fun k _ hk => absurd hk (Nat.not_lt_zero k),fun x hx => by
    simp [Delays.contents,Delays.empty,slots] at hx⟩

variable (execTime)

/-- Over every run from an empty dispatcher the slice is a heap, and the tasks in it with
every task a call returned are the tasks the calls took in. -/
theorem Delays.Heap.run (g : Nat → τ) (ops : List (DelayedOp τ)) :
    (Runs.run (delayedStep execTime) (Delays.empty g) ops).Heap execTime ∧
      ((Runs.run (delayedStep execTime) (Delays.empty g) ops).contents ++
        Runs.trace (delayedStep execTime) (returned execTime) (Delays.empty g) ops).Perm
        (ops.flatMap (taken execTime)) := by
  obtain ⟨hP,hperm⟩ := @Runs.steps_conserve _ _ _ (delayedStep execTime) (fun _ _ => True)
    (fun d => d.Heap execTime) Delays.contents (fun _ op => taken execTime op) (returned execTime)
    (fun _ op hd _ => hd.step op) ops (Delays.empty g) (Runs.steps_of_forall (fun _ _ => trivial) _ ops)
    Delays.empty_heap
  rw [Runs.trace_const] at hperm
  exact ⟨hP,hperm⟩

theorem dispatchingDelayed_heap (g : Nat → τ) (ops : List (DelayedOp τ)) :
    let d : Delays τ := Runs.run (delayedStep execTime) (Delays.empty g) ops
    HeapOrder execTime d.get d.len ∧
      (d.contents ++ Runs.trace (delayedStep execTime) (returned execTime) (Delays.empty g) ops).Perm
        (ops.flatMap (taken execTime)) ∧
      (∀ i, d.len ≤ i → delDelayed execTime d i = (d,none)) ∧
      (∀ i < d.len, (delDelayed execTime d i).2 = some (d.get i) ∧
        ((delDelayed execTime d i).1.contents ++ [d.get i]).Perm d.contents) ∧
      (d.len = 0 → delDelayedTop execTime d = (d,none)) ∧
      (0 < d.len → (delDelayedTop execTime d).2 = some (d.get 0) ∧
        (∀ y ∈ d.contents, execTime (d.get 0) ≤ execTime y) ∧
        ((delDelayedTop execTime d).1.contents ++ [d.get 0]).Perm d.contents) ∧
      (∀ now, d.len = 0 ∨ now < execTime (d.get 0) → popIfReady execTime d now = (d,none)) ∧
      (∀ now, 0 < d.len → execTime (d.get 0) ≤ now →
        popIfReady execTime d now = delDelayedTop execTime d) := by
  intro d
  have h : d.Heap execTime := (Delays.Heap.run execTime g ops).1
  have hperm := (Delays.Heap.run execTime g ops).2
  refine ⟨h.ordered,hperm,fun i hi => delDelayed_of_le hi,fun i hi => (h.del hi).2,
    delDelayedTop_of_empty,fun hn => ⟨(h.delTop (by omega)).2.1,?_,(h.delTop (by omega)).2.2⟩,
    fun now hnow => by rw [popIfReady_eq,if_pos hnow],
    fun now hn hnow => by rw [popIfReady_eq,if_neg (by omega)]⟩
  intro y hy
  obtain ⟨k,hk,rfl⟩ := List.mem_map.mp hy
  exact h.ordered.root_le k (List.mem_range.mp hk)

end Gkit.Delayed
