import Gkit.Zset.Delete

/-!
The range deletions. `deleteRun` deletes a prefix of the nodes after the cut one at a
time with the `update` arrays of the one search made before the first deletion: after
each deletion the nodes before the cut, and so the arrays' stopping points, are as they
were, so the arrays stay right for the next node (`deleteNode_lastAbove`). The run
lemma says which prefix goes; `DeleteRangeByScore` and `DeleteRangeByRank` are then a
cut and a run.
-/

namespace Gkit.Zset

/-! ### Score ranges -/

/-- A score lies in the range from `min` to `max` with the ends `opt` excludes, by Go's
comparisons: no score is in a range with a NaN end. -/
def scoreInRange (min max : Binary64) (opt : RangeOpt) (score : Binary64) : Bool :=
  greaterThanMin score min opt.excludeMin && lessThanMax score max opt.excludeMax

section Monotone

variable {a b : Binary64}

theorem greaterThanMin_mono {min : Binary64} {ex : Bool} (hb : b.isNaN = false) (hab : a.key ≤ b.key)
    (h : greaterThanMin a min ex = true) : greaterThanMin b min ex = true := by
  cases ex <;> simp only [greaterThanMin,Bool.false_eq_true,↓reduceIte,Binary64.lt_eq_true_iff,
    Binary64.le_eq_true_iff] at h ⊢ <;>
    exact ⟨h.1,hb,by omega⟩

theorem lessThanMax_anti {max : Binary64} {ex : Bool} (ha : a.isNaN = false) (hab : a.key ≤ b.key)
    (h : lessThanMax b max ex = true) : lessThanMax a max ex = true := by
  cases ex <;> simp only [lessThanMax,Bool.false_eq_true,↓reduceIte,Binary64.lt_eq_true_iff,
    Binary64.le_eq_true_iff] at h ⊢ <;>
    exact ⟨ha,h.2.1,by omega⟩

end Monotone

theorem ListNode.score_key_le {a b : ListNode} (h : a.key < b.key) : a.score.key ≤ b.score.key := by
  rw [ListNode.key,ListNode.key,Prod.Lex.toLex_lt_toLex] at h
  rcases h with h | h
  · exact le_of_lt h
  · exact le_of_eq h.1

namespace Float64List

open SkipList

variable {l : Float64List} {u : Nat → Nat} {r : Nat → Int} {es : List Nat}

/-- What a range deletion from `l` with `dict` leaves in `d`: the invariant for the nodes
`keep`, the members of the nodes `P` gone from `dict` and reported in order, and every
node's entry as it was. -/
structure RangeDeleted (l : Float64List) (dict : Redis.Assoc String Binary64) (keep P : List Nat)
    (d : Float64List × Redis.Assoc String Binary64 × List Float64Node) : Prop where
  chain : d.1.Chain keep
  dict : d.2.1 = dict.eraseAll ((l.members P).map Float64Node.value)
  removed : d.2.2 = l.members P
  fresh : d.1.fresh = l.fresh
  entry : ∀ m, (d.1.node m).score = (l.node m).score ∧ (d.1.node m).value = (l.node m).value

theorem Chain.lt_of_split (hc : l.Chain es) {X Y : List Nat} {c : Nat} (hes : es = X ++ c :: Y) :
    ∀ n ∈ Y, (l.node c).key < (l.node n).key := by
  have hs := hc.sorted
  rw [hes,List.pairwise_append,List.pairwise_cons] at hs
  exact hs.2.1.1

/-- The run lemma of `deleteRun`: from the first node of `B`, the run deletes the longest
prefix `P` of `B` whose nodes pass `more` at their counters, keeping the invariant for
what is left, and drops and reports exactly the members of `P`. -/
theorem Chain.deleteRun (more : Int → ListNode → Bool)
    (hmore : ∀ t (n n' : ListNode), n.score = n'.score → more t n = more t n')
    (fuel : Nat) {A B : List Nat} (hc : l.Chain (A ++ B))
    (hu : ∀ i < l.highestLevel, LastAbove l.lvl i (header :: A) (u i) (r i))
    (hfuel : B.length < fuel) (dict : Redis.Assoc String Binary64) (removed : List Float64Node)
    (traversed : Int) :
    ∃ P Q, B = P ++ Q ∧
      (∀ P₁ c P₂, P = P₁ ++ c :: P₂ → more (traversed + P₁.length) (l.node c) = true) ∧
      (∀ c Q', Q = c :: Q' → more (traversed + P.length) (l.node c) = false) ∧
      (deleteRun u more fuel l dict removed traversed B.head?).1.Chain (A ++ Q) ∧
      (deleteRun u more fuel l dict removed traversed B.head?).2.1 =
        dict.eraseAll ((l.members P).map Float64Node.value) ∧
      (deleteRun u more fuel l dict removed traversed B.head?).2.2 = removed ++ l.members P ∧
      (deleteRun u more fuel l dict removed traversed B.head?).1.fresh = l.fresh ∧
      ∀ m, ((deleteRun u more fuel l dict removed traversed B.head?).1.node m).score =
          (l.node m).score ∧
        ((deleteRun u more fuel l dict removed traversed B.head?).1.node m).value =
          (l.node m).value := by
  induction fuel generalizing l B dict removed traversed with
  | zero => omega
  | succ f ih =>
    cases B with
    | nil =>
      refine ⟨[],[],rfl,?_,?_,?_⟩
      · intro P₁ c P₂ h
        simp at h
      · intro c Q' h
        cases h
      · rw [List.head?_nil,deleteRun]
        exact ⟨hc,rfl,by simp [members],rfl,fun _ => ⟨rfl,rfl⟩⟩
    | cons x B =>
      by_cases hx : more traversed (l.node x) = true
      · -- `x` goes; the rest of the run starts from its successor
        have hxes : x ∈ A ++ x :: B := by simp
        have hnext : l.loadNext x 0 = B.head? :=
          hc.layout.next_zero (fun n hn => (hc.levels n hn).1)
            (show header :: (A ++ x :: B) = (header :: A) ++ x :: B from rfl)
            (by rw [hc.live_eq hxes]; exact (hc.levels x hxes).1)
        have hc₁ := hc.deleteNode rfl hu
        have hu₁ := deleteNode_lastAbove (x := x) hu
        obtain ⟨-,-,hf₁,he₁⟩ := deleteNode_frame (l := l) (x := x) (u := u)
        obtain ⟨P,Q,hB,hP,hQ,hcQ,hdict,hrem,hfr,hent⟩ :=
          ih hc₁ hu₁ (by simp at hfuel; omega) (dict.erase ((l.deleteNode x u).node x).value)
            (removed ++ [⟨((l.deleteNode x u).node x).value,((l.deleteNode x u).node x).score⟩])
            (traversed + 1)
        have hrun : deleteRun u more (f + 1) l dict removed traversed (x :: B).head? =
            deleteRun u more f (l.deleteNode x u)
              (dict.erase ((l.deleteNode x u).node x).value)
              (removed ++ [⟨((l.deleteNode x u).node x).value,((l.deleteNode x u).node x).score⟩])
              (traversed + 1) B.head? := by
          rw [List.head?_cons,deleteRun,if_pos hx,hnext]
        have hmem₁ : (l.deleteNode x u).members P = l.members P :=
          members_congr fun m _ => he₁ m
        refine ⟨x :: P,Q,by rw [hB]; rfl,fun P₁ c P₂ h => ?_,fun c Q' h => ?_,?_⟩
        · cases P₁ with
          | nil =>
            cases h
            simpa using hx
          | cons d P₁ =>
            simp only [List.cons_append,List.cons.injEq] at h
            obtain ⟨rfl,h⟩ := h
            have := hP P₁ c P₂ h
            rw [hmore _ _ (l.node c) (he₁ c).1] at this
            rwa [List.length_cons,Int.natCast_add,Int.cast_ofNat_Int,Int.add_comm _ 1,← Int.add_assoc]
        · have := hQ c Q' h
          rw [hmore _ _ (l.node c) (he₁ c).1] at this
          rwa [List.length_cons,Int.natCast_add,Int.cast_ofNat_Int,Int.add_comm _ 1,← Int.add_assoc]
        · rw [hrun]
          refine ⟨hcQ,?_,?_,by rw [hfr,hf₁],fun m => ⟨(hent m).1.trans (he₁ m).1,
            (hent m).2.trans (he₁ m).2⟩⟩
          · rw [hdict,hmem₁,(he₁ x).2]
            rfl
          · rw [hrem,hmem₁,(he₁ x).1,(he₁ x).2]
            simp [members]
      · -- the run stops at `x`
        refine ⟨[],x :: B,rfl,fun P₁ c P₂ h => by simp at h,fun c Q' h => ?_,?_⟩
        · cases h
          simpa using hx
        · rw [List.head?_cons,deleteRun,if_neg hx]
          exact ⟨hc,rfl,by simp [members],rfl,fun _ => ⟨rfl,rfl⟩⟩

/-- `DeleteRangeByScore` deletes the nodes whose score is in the range, which follow the
nodes below `min` and come before those above `max`. -/
theorem Chain.deleteRangeByScore (hc : l.Chain es) (min max : Binary64) (opt : RangeOpt)
    (dict : Redis.Assoc String Binary64) :
    ∃ A P Q, es = A ++ P ++ Q ∧
      (∀ n ∈ P, scoreInRange min max opt (l.node n).score = true) ∧
      (∀ n ∈ A ++ Q, scoreInRange min max opt (l.node n).score = false) ∧
      RangeDeleted l dict (A ++ Q) P (l.DeleteRangeByScore min max opt dict) := by
  set gt : Nat → Bool := fun n => greaterThanMin (l.node n).score min opt.excludeMin with hgt
  set lt : Nat → Bool := fun n => lessThanMax (l.node n).score max opt.excludeMax with hlt
  -- the search cuts the list at the first node above `min`
  obtain ⟨A,B,hes,hA,hB⟩ := cut_of_sorted hc.sorted (fun n => !gt n) fun a _ b hb hab h => by
    have hmono : gt a = true → gt b = true :=
      greaterThanMin_mono (hc.notNaN b hb) (ListNode.score_key_le hab)
    cases h' : gt a
    · rfl
    · simp [hmono h'] at h
  have hu : ∀ i < l.highestLevel, LastAbove l.lvl i (header :: A) ((l.search fun _ n => !gt n).1 i)
      ((l.search fun _ n => !gt n).2 i) :=
    hc.search hes (fun A₁ b A₂ h => hA b (by simp [h])) (fun B₁ b B₂ h => hB b (by simp [h]))
  have hnext := hc.search_next hes (hu 0 hc.highest.1)
  have hfuel : B.length < l.fresh := by
    have := hc.length_lt
    rw [hes,List.length_append] at this
    omega
  -- then the run deletes the nodes of `B` below `max`
  obtain ⟨P,Q,rfl,hP,hQ,hcQ,hdict,hrem,hfr,hent⟩ :=
    (hes ▸ hc).deleteRun (fun _ n => lessThanMax n.score max opt.excludeMax)
      (fun t n n' h => by simp only [h]) l.fresh hu hfuel dict [] 0
  have hD : l.DeleteRangeByScore min max opt dict =
      Float64List.deleteRun (l.search fun _ n => !gt n).1
        (fun _ n => lessThanMax n.score max opt.excludeMax) l.fresh l dict [] 0 (P ++ Q).head? := by
    unfold DeleteRangeByScore
    exact congrArg (Float64List.deleteRun _ _ l.fresh l dict [] 0) hnext
  have hmemP : ∀ n ∈ P, lt n = true := fun n hn => by
    obtain ⟨P₁,P₂,rfl⟩ := List.append_of_mem hn
    exact hP P₁ n P₂ rfl
  have hmemQ : ∀ n ∈ Q, lt n = false := by
    intro n hn
    cases Q with
    | nil => simp at hn
    | cons c Q' =>
      have hc' := hQ c Q' rfl
      rcases List.mem_cons.mp hn with rfl | hn
      · exact hc'
      · -- a node after `c` below `max` would put `c` below it too
        have hsplit : es = (A ++ P) ++ c :: Q' := by rw [hes,List.append_assoc]
        have hcn := hc.lt_of_split hsplit n hn
        cases h : lt n
        · rfl
        · have := lessThanMax_anti (hc.notNaN c (by rw [hes]; simp)) (ListNode.score_key_le hcn) h
          rw [hc'] at this
          exact absurd this (by decide)
  refine ⟨A,P,Q,by rw [hes,List.append_assoc],fun n hn => ?_,fun n hn => ?_,?_⟩
  · have hgn : gt n = true := by simpa using hB n (List.mem_append_left _ hn)
    exact Bool.and_eq_true_iff.mpr ⟨hgn,hmemP n hn⟩
  · rcases List.mem_append.mp hn with hn | hn
    · have : gt n = false := by simpa using hA n hn
      simp only [scoreInRange]
      rw [show greaterThanMin (l.node n).score min opt.excludeMin = gt n from rfl,this,Bool.false_and]
    · simp only [scoreInRange]
      rw [show lessThanMax (l.node n).score max opt.excludeMax = lt n from rfl,hmemQ n hn,
        Bool.and_false]
  · rw [hD]
    exact ⟨hcQ,hdict,by rw [hrem,List.nil_append],hfr,hent⟩

/-- `DeleteRangeByRank` deletes the nodes of 1-based ranks `start` to `stop`: by position
from `start - 1` up to `stop`, each clamped to the list. -/
theorem Chain.deleteRangeByRank (hc : l.Chain es) (start stop : Int)
    (dict : Redis.Assoc String Binary64) :
    RangeDeleted l dict (es.take (start - 1).toNat ++ es.drop (max (start - 1).toNat stop.toNat))
      ((es.take stop.toNat).drop (start - 1).toNat) (l.DeleteRangeByRank start stop dict) := by
  set s := (start - 1).toNat with hs
  set e := stop.toNat with he
  set go : Int → Nat → Bool := fun r _ => decide (r < start)
  set A := es.take s
  set B := es.drop s
  have hes : es = A ++ B := (List.take_append_drop s es).symm
  have hAlen : A.length ≤ s := by simp [A]
  have hAs : B ≠ [] → A.length = s := fun hB => by
    have : s < es.length := by
      by_contra h
      exact hB (List.drop_of_length_le (by omega))
    simp [A]
    omega
  have hu : ∀ i < l.highestLevel, LastAbove l.lvl i (header :: A) ((l.search go).1 i)
      ((l.search go).2 i) := by
    refine hc.search hes (fun A₁ b A₂ h => ?_) (fun B₁ b B₂ h => ?_)
    · have := congrArg List.length h
      simp only [List.length_append,List.length_cons] at this
      simp only [go,decide_eq_true_eq]
      omega
    · have := hAs (by rw [h]; simp)
      simp only [go,decide_eq_false_iff_not]
      omega
  have hu0 := hu 0 hc.highest.1
  have hnext := hc.search_next hes hu0
  have hrank := (hc.lastAbove_zero hes hu0).1
  have hfuel : B.length < l.fresh := by
    have := hc.length_lt
    rw [hes,List.length_append] at this
    omega
  obtain ⟨P,Q,hB,hP,hQ,hcQ,hdict,hrem,hfr,hent⟩ :=
    (hes ▸ hc).deleteRun (fun t _ => decide (t ≤ stop)) (fun _ _ _ _ => rfl) l.fresh hu hfuel dict []
      (A.length + 1)
  have hD : l.DeleteRangeByRank start stop dict =
      Float64List.deleteRun (l.search go).1 (fun t _ => decide (t ≤ stop)) l.fresh l dict []
        (A.length + 1) B.head? := by
    unfold DeleteRangeByRank
    rw [← hrank,← hnext]
  have hle : P.length ≤ e - s := by
    rcases List.eq_nil_or_concat P with hP0 | ⟨P₁,c,hP1⟩
    · simp [hP0]
    · rw [List.concat_eq_append] at hP1
      have h := hP P₁ c [] hP1
      have := hAs (by rw [hB,hP1]; simp)
      have hl := congrArg List.length hP1
      simp only [List.length_append,List.length_singleton] at hl
      simp only [decide_eq_true_eq] at h
      omega
  have hge : Q ≠ [] → e - s ≤ P.length := by
    intro hQ0
    obtain ⟨c,Q',rfl⟩ := List.exists_cons_of_ne_nil hQ0
    have h := hQ c Q' rfl
    have := hAs (by rw [hB]; simp)
    simp only [decide_eq_false_iff_not] at h
    omega
  have hPtake : (es.take e).drop s = P := by
    rw [List.drop_take,show es.drop s = P ++ Q from hB]
    by_cases hQ0 : Q = []
    · rw [hQ0,List.append_nil]
      exact List.take_of_length_le hle
    · exact List.take_left' (by have := hge hQ0; omega)
  have hQdrop : es.drop (max s e) = Q := by
    have hmax : max s e = s + (max s e - s) := by omega
    rw [hmax,← List.drop_drop,show es.drop s = P ++ Q from hB]
    by_cases hQ0 : Q = []
    · rw [hQ0,List.append_nil]
      exact List.drop_of_length_le (by omega)
    · rw [show max s e - s = P.length by have := hge hQ0; omega]
      exact List.drop_left' rfl
  rw [hPtake,hQdrop,hD]
  exact ⟨hcQ,hdict,by rw [hrem,List.nil_append],hfr,hent⟩

end Float64List

end Gkit.Zset
