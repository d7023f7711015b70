import Gkit.Zset.Invariant

/-!
The read methods of `Float64Set`, on a set with the invariant. `GetNodeByRank` and `Rank`
are descents that return at the first level whose stop tells them where they are; one
level of either is `SkipList.walk_lastAbove`. The result loops of the range reads walk
level 0 forwards or the back pointers backwards.
-/

namespace Gkit.Zset

open Redis SkipList

namespace Float64List

variable {l : Float64List} {es : List Nat}

theorem Chain.getNodeByRank (hc : l.Chain es) {A B : List Nat} {x : Nat} (hes : es = A ++ x :: B) :
    l.GetNodeByRank (A.length + 1) = some x := by
  set rank : Int := A.length + 1 with hrank
  set go : Int → Nat → Bool := fun r _ => decide (r ≤ rank)
  have hes' : es = (A ++ [x]) ++ B := by rw [hes]; simp
  have hlay : Canonical l.lvl l.loadNext l.loadSpan l.live (header :: ((A ++ [x]) ++ B)) :=
    hes' ▸ hc.layout
  have hlive : ∀ b ∈ (A ++ [x]) ++ B, l.live b = l.lvl b := fun b hb => hc.live_eq (hes' ▸ hb)
  have hA : ∀ A₁ b A₂, header :: (A ++ [x]) = A₁ ++ b :: A₂ → A₁ ≠ [] → go A₁.length b = true := by
    intro A₁ b A₂ h _
    have := congrArg List.length h
    simp only [List.length_cons,List.length_append,List.length_nil] at this
    simp only [go,hrank,decide_eq_true_eq]
    omega
  have hB : ∀ B₁ b B₂, B = B₁ ++ b :: B₂ → go ((A ++ [x]).length + B₁.length + 1) b = false := by
    intro B₁ b B₂ _
    simp only [go,hrank,List.length_append,List.length_singleton,decide_eq_false_iff_not]
    omega
  have hfuel : (A ++ [x]).length < l.fresh := by
    have := hc.length_lt
    rw [hes'] at this
    simp only [List.length_append] at this ⊢
    omega
  have hlevels : ∀ k, 1 ≤ k → k ≤ l.highestLevel → ∀ y m₁ m₂, header :: (A ++ [x]) = m₁ ++ y :: m₂ →
      (m₁ = [] ∨ k ≤ l.lvl y) → l.rankedLevels rank k y m₁.length = some x := by
    intro k
    induction k with
    | zero => intro h; omega
    | succ k ih =>
      intro _ hk y m₁ m₂ hsplit hy
      have hstop := walk_lastAbove hlay hlive hA hB hfuel (by rw [live_header]; omega) hsplit hy
      set p := SkipList.walk l.loadNext l.loadSpan go k l.fresh y m₁.length
      show (if p.2 = rank then some p.1 else l.rankedLevels rank k p.1 p.2) = some x
      by_cases hp : p.2 = rank
      · -- the stop at the last position of `header :: A ++ [x]` is `x`
        rw [if_pos hp]
        have := hstop.eq_last (by rw [hp,hrank]; simp)
        simp only [List.getLast?_cons,List.getLast?_append] at this
        simpa using this.symm
      · rw [if_neg hp]
        have hk0 : k ≠ 0 := by
          rintro rfl
          exact hp ((hc.lastAbove_zero hes' hstop).1.trans (by simp [hrank]))
        obtain ⟨c₁,c₂,hcs,-,hcab,hcp⟩ := hstop
        rw [hcp]
        exact ih (by omega) (by omega) p.1 c₁ c₂ hcs (hcab.imp_right Nat.le_of_lt)
  unfold GetNodeByRank
  rw [if_neg (by omega)]
  exact hlevels l.highestLevel hc.highest.1 le_rfl header [] (A ++ [x]) rfl (.inl rfl)

end Float64List

/-! ### Rank ranges -/

section Normalize

variable {len start stop s e : Int}

/-- What `normalizeRankRange` returns for a range it keeps: ends inside the list, in order,
the clamped ends of the range. -/
theorem normalizeRankRange_true (h : normalizeRankRange len start stop = (s,e,true)) :
    0 ≤ s ∧ s ≤ e ∧ e < len ∧
      s = (if (if start < 0 then start + len else start) < 0 then 0
        else if start < 0 then start + len else start) ∧
      e = (if (if stop < 0 then stop + len else stop) ≥ len then len - 1
        else if stop < 0 then stop + len else stop) := by
  simp only [normalizeRankRange] at h
  split_ifs at h ⊢ <;> simp only [Prod.mk.injEq,reduceCtorEq,and_false] at h <;> omega

theorem normalizeRankRange_false (h : normalizeRankRange len start stop = (s,e,false)) :
    len = 0 ∨ (if (if start < 0 then start + len else start) < 0 then 0
        else if start < 0 then start + len else start) ≥ len ∨
      (if (if start < 0 then start + len else start) < 0 then 0
        else if start < 0 then start + len else start) > (if stop < 0 then stop + len else stop) := by
  simp only [normalizeRankRange] at h
  split_ifs at h ⊢ <;> simp only [Prod.mk.injEq,reduceCtorEq,and_false] at h <;> omega

end Normalize

/-- The positions `start` to `stop` of `L`, a negative one counted from the end, clamped to
the list: the slice the Redis rank commands read. -/
def rankSlice {α : Type} (L : List α) (start stop : Int) : List α :=
  (L.take ((if stop < 0 then stop + L.length else stop) + 1).toNat).drop
    (if start < 0 then start + L.length else start).toNat

theorem rankSlice_of_true {α : Type} {L : List α} {start stop s e : Int}
    (h : normalizeRankRange L.length start stop = (s,e,true)) :
    rankSlice L start stop = (L.drop s.toNat).take (e - s + 1).toNat := by
  have hn := normalizeRankRange_true h
  unfold rankSlice
  have hs : (if start < 0 then start + L.length else start).toNat = s.toNat := by
    split_ifs at hn ⊢ <;> omega
  rw [List.drop_take,hs,List.take_eq_take_iff,List.length_drop]
  split_ifs at hn ⊢ <;> omega

theorem rankSlice_of_false {α : Type} {L : List α} {start stop s e : Int}
    (h : normalizeRankRange L.length start stop = (s,e,false)) : rankSlice L start stop = [] := by
  have hn := normalizeRankRange_false h
  unfold rankSlice
  rw [List.drop_eq_nil_iff,List.length_take]
  split_ifs at hn ⊢ <;> omega

namespace Float64Set

open Float64List

variable {z : Float64Set} {es : List Nat}

@[simp] theorem collect_none (more : Int → ListNode → Bool) (step : ListNode → Option Nat)
    (fuel : Nat) (c : Int) : z.collect more step fuel none c = [] := by
  cases fuel <;> rfl

theorem collect_succ (more : Int → ListNode → Bool) (step : ListNode → Option Nat) (fuel x : Nat)
    (c : Int) :
    z.collect more step (fuel + 1) (some x) c =
      if more c (z.list.node x) then
        ⟨(z.list.node x).value,(z.list.node x).score⟩ :: z.collect more step fuel (step (z.list.node x)) (c + 1)
      else [] := rfl

theorem take_counter {α : Type} (a : α) (as : List α) (stop c : Int) :
    (a :: as).take (stop - c + 1).toNat =
      if c ≤ stop then a :: as.take (stop - (c + 1) + 1).toNat else [] := by
  split_ifs with h
  · rw [show (stop - c + 1).toNat = (stop - (c + 1) + 1).toNat + 1 by omega,List.take_succ_cons]
  · rw [show (stop - c + 1).toNat = 0 by omega,List.take_zero]

/-- The forward result loop, from a node of the list, takes the nodes from it on while
the counter is at most `stop`. -/
theorem collect_next (hc : z.list.Chain es) (stop : Int) {A B : List Nat} {x : Nat} (fuel : Nat)
    (c : Int) (hes : es = A ++ x :: B) (hfuel : B.length < fuel) :
    z.collect (fun c _ => decide (c ≤ stop)) (fun n => n.next 0) fuel (some x) c =
      z.list.members ((x :: B).take (stop - c + 1).toNat) := by
  induction B generalizing A x c fuel with
  | nil =>
    obtain ⟨f,rfl⟩ : ∃ f, fuel = f + 1 := ⟨fuel - 1,by simp at hfuel; omega⟩
    rw [collect_succ,take_counter]
    have hnext : (z.list.node x).next 0 = none := hc.next_of_split hes
    by_cases hcs : c ≤ stop <;> simp [hcs,hnext]
  | cons y B ih =>
    obtain ⟨f,rfl⟩ : ∃ f, fuel = f + 1 := ⟨fuel - 1,by simp at hfuel; omega⟩
    rw [collect_succ,take_counter]
    have hnext : (z.list.node x).next 0 = some y := hc.next_of_split hes
    have hrest := ih f (c + 1) (A := A ++ [x]) (x := y) (by rw [hes]; simp) (by simp at hfuel; omega)
    by_cases hcs : c ≤ stop
    · simp [hcs,hnext,hrest]
    · simp [hcs]

/-- The backward result loop, from a node of the list, takes it and the nodes before it,
the nearest first, while the counter is at most `stop`. -/
theorem collect_prev (hc : z.list.Chain es) (stop : Int) (R : List Nat) {B : List Nat} {x : Nat}
    (fuel : Nat) (c : Int) (hes : es = R.reverse ++ x :: B) (hfuel : R.length < fuel) :
    z.collect (fun c _ => decide (c ≤ stop)) ListNode.prev fuel (some x) c =
      z.list.members ((x :: R).take (stop - c + 1).toNat) := by
  induction R generalizing B x c fuel with
  | nil =>
    obtain ⟨f,rfl⟩ : ∃ f, fuel = f + 1 := ⟨fuel - 1,by simp at hfuel; omega⟩
    rw [collect_succ,take_counter]
    have hprev : (z.list.node x).prev = none := by simpa using hc.prev_of_split hes
    by_cases hcs : c ≤ stop <;> simp [hcs,hprev]
  | cons y R ih =>
    obtain ⟨f,rfl⟩ : ∃ f, fuel = f + 1 := ⟨fuel - 1,by simp at hfuel; omega⟩
    rw [collect_succ,take_counter]
    have hprev : (z.list.node x).prev = some y := by simpa using hc.prev_of_split hes
    have hrest := ih f (c + 1) (B := x :: B) (x := y) (by rw [hes]; simp) (by simp at hfuel; omega)
    by_cases hcs : c ≤ stop
    · simp [hcs,hprev,hrest]
    · simp [hcs]

theorem Invariant.range (hz : z.Invariant es) (start stop : Int) :
    z.Range start stop = rankSlice (z.list.members es) start stop := by
  have hlen : (z.list.members es).length = z.list.length := by
    rw [hz.chain.length]
    simp [members]
  unfold Range
  split
  · rename_i s e h
    rw [rankSlice_of_false (hlen ▸ h)]
  · rename_i s e h
    have hn := normalizeRankRange_true h
    rw [rankSlice_of_true (hlen ▸ h)]
    have hs : s.toNat < es.length := by
      have := hz.chain.length
      omega
    obtain ⟨x,B,hxB⟩ : ∃ x B, es.drop s.toNat = x :: B :=
      ⟨_,_,List.drop_eq_getElem_cons hs⟩
    have hes : es = es.take s.toNat ++ x :: B := by rw [← hxB,List.take_append_drop]
    have hget := hz.chain.getNodeByRank hes
    rw [List.length_take_of_le hs.le,show (s.toNat : Int) + 1 = s + 1 by omega] at hget
    have hfuel : B.length < z.list.fresh := by
      have := hz.chain.length_lt
      have := congrArg List.length hes
      simp at this
      omega
    rw [hget,collect_next hz.chain e z.list.fresh s hes hfuel,← hxB]
    simp only [members,List.map_take,List.map_drop]

/-- `RevRange` on a set with the invariant is the slice of its sorted members taken from
the end. -/
theorem Invariant.revRange (hz : z.Invariant es) (start stop : Int) :
    z.RevRange start stop = rankSlice (z.list.members es).reverse start stop := by
  have hlen : (z.list.members es).reverse.length = z.list.length := by
    rw [List.length_reverse,hz.chain.length]
    simp [members]
  unfold RevRange
  split
  · rename_i s e h
    rw [rankSlice_of_false (hlen ▸ h)]
  · rename_i s e h
    have hn := normalizeRankRange_true h
    rw [rankSlice_of_true (hlen ▸ h)]
    have hl := hz.chain.length
    set k := es.length - s.toNat - 1 with hk
    have hks : k < es.length := by omega
    have hes : es = es.take k ++ es[k] :: es.drop (k + 1) := by
      rw [← List.drop_eq_getElem_cons hks,List.take_append_drop]
    have hget := hz.chain.getNodeByRank hes
    rw [List.length_take_of_le hks.le,show (k : Int) + 1 = z.list.length - s by omega] at hget
    have hfuel : (es.take k).reverse.length < z.list.fresh := by
      have := hz.chain.length_lt
      simp only [List.length_reverse,List.length_take]
      omega
    rw [hget,collect_prev hz.chain e (es.take k).reverse z.list.fresh s
      (by rw [List.reverse_reverse]; exact hes) hfuel]
    have htake : es.take (es.length - s.toNat) = es.take k ++ [es[k]] := by
      rw [show es.length - s.toNat = k + 1 by omega,List.take_add_one,List.getElem?_eq_getElem hks]
      rfl
    simp only [members,← List.map_reverse,← List.map_drop,List.drop_reverse,htake,List.map_take,
      List.reverse_append,List.reverse_singleton,List.singleton_append]

/-- On every set a run of methods from `NewFloat64` reaches, with `L = members es` its
sorted member list, `Range` is the slice of `L` between the normalised positions and
`RevRange` the same slice of `L` reversed; both are read off the nodes `es`, which do not
include the header. -/
theorem range_slice (add : Binary64 → Binary64 → Binary64) (ops : List Float64SetOp)
    (start stop : Int) :
    let z := Runs.run (float64SetStep add) NewFloat64 ops
    ∃ es, z.Invariant es ∧ header ∉ es ∧
      z.Range start stop = rankSlice (z.list.members es) start stop ∧
      z.RevRange start stop = rankSlice (z.list.members es).reverse start stop := by
  intro z
  obtain ⟨es,hz⟩ := newFloat64_invariant.run add ops
  exact ⟨es,hz,(List.nodup_cons.mp hz.chain.nodup).1,hz.range start stop,hz.revRange start stop⟩

/-! ### A member that looks like the header

The header carries the entry `(-math.MaxFloat64, "__HEADER")`, and `Rank` returns as soon
as a level stops at a node equal to what it looks for. A member with that entry that is
not on the top level lets the first level stop at the header itself. -/

/-- A member named `"__HEADER"` at `-math.MaxFloat64` on level 1, then a member `"a"` at
`1.0` on level 2. -/
def headerTwinOps : List Float64SetOp :=
  [.add Binary64.maxFloat64.neg "__HEADER" 0, .add ⟨false,1023,0⟩ "a" 1]

/-- The set `headerTwinOps` reaches; it adds no score, so the float addition is not used. -/
def headerTwin (add : Binary64 → Binary64 → Binary64) : Float64Set :=
  Runs.run (float64SetStep add) NewFloat64 headerTwinOps

theorem headerTwin_eq (add : Binary64 → Binary64 → Binary64) :
    headerTwin add = headerTwin fun a _ => a := rfl

/-- `"__HEADER"` is a member of the two-member set, and `Rank` reports it missing: the first
level stops at the header, which equals it. `RevRank` is then `Len`. -/
theorem rank_headerTwin (add : Binary64 → Binary64 → Binary64) :
    (headerTwin add).Score "__HEADER" = (Binary64.maxFloat64.neg,true) ∧ (headerTwin add).Len = 2 ∧
      (headerTwin add).Rank "__HEADER" = -1 ∧ (headerTwin add).RevRank "__HEADER" = 2 := by
  rw [headerTwin_eq]
  decide +kernel

/-- Both members lie in the range from `-math.MaxFloat64` to `1.0`, and `RangeByScoreWithOpt`
returns both, but `CountWithOpt` counts three: it takes the first one's rank from `Rank`. -/
theorem countWithOpt_headerTwin (add : Binary64 → Binary64 → Binary64) :
    ((headerTwin add).RangeByScoreWithOpt Binary64.maxFloat64.neg ⟨false,1023,0⟩ ⟨false,false⟩).length = 2 ∧
      (headerTwin add).CountWithOpt Binary64.maxFloat64.neg ⟨false,1023,0⟩ ⟨false,false⟩ = 3 := by
  rw [headerTwin_eq]
  decide +kernel

end Float64Set

end Gkit.Zset
