import Gkit.Zset.Set
import Gkit.Zset.DeleteRange

/-!
The invariant of `Float64Set`: the list keeps its representation invariant for some nodes
`es`, and `dict` maps exactly their values, no value twice, to their scores. Each method
that changes the set keeps it, so every set a run of methods reaches has it, and
`members es` is then the sorted member list the read methods are specified against.
-/

namespace Gkit.Zset

open Redis Float64List SkipList

/-- `dict` holds exactly the members `ms`, and no value twice. -/
structure Agrees (dict : Assoc String Binary64) (ms : List Float64Node) : Prop where
  nodup : (ms.map Float64Node.value).Nodup
  get : ∀ v s, dict.get? v = some s ↔ (⟨v,s⟩ : Float64Node) ∈ ms

namespace Agrees

variable {d d' : Assoc String Binary64} {ms ms' : List Float64Node}

theorem perm (h : Agrees d ms) (hp : ms.Perm ms') : Agrees d ms' :=
  ⟨(hp.map _).nodup_iff.mp h.nodup,fun v s => (h.get v s).trans hp.mem_iff⟩

theorem congr (h : Agrees d ms) (hg : ∀ v, d'.get? v = d.get? v) : Agrees d' ms :=
  ⟨h.nodup,fun v s => by rw [hg]; exact h.get v s⟩

theorem get_none (h : Agrees d ms) {v : String} : d.get? v = none ↔ ∀ m ∈ ms, m.value ≠ v := by
  constructor
  · intro hv m hm hmv
    have := (h.get v m.score).mpr (by rw [← hmv]; exact hm)
    rw [hv] at this
    cases this
  · intro hv
    cases hs : d.get? v with
    | none => rfl
    | some s => exact absurd rfl (hv _ ((h.get v s).mp hs))

theorem eraseAll {P R : List Float64Node} (h : Agrees d (P ++ R)) :
    Agrees (d.eraseAll (P.map Float64Node.value)) R := by
  have hnd := h.nodup
  rw [List.map_append,List.nodup_append] at hnd
  refine ⟨hnd.2.1,fun v s => ?_⟩
  rw [Assoc.get?_eraseAll]
  constructor
  · intro hv
    split_ifs at hv with hP
    rcases List.mem_append.mp ((h.get v s).mp hv) with hm | hm
    · exact absurd (List.mem_map_of_mem (f := Float64Node.value) hm) hP
    · exact hm
  · intro hm
    have hP : v ∉ P.map Float64Node.value := fun hv => by
      obtain ⟨p,hp,hpv⟩ := List.mem_map.mp hv
      exact hnd.2.2 _ (List.mem_map_of_mem hp) _ (List.mem_map_of_mem hm) hpv
    rw [if_neg hP]
    exact (h.get v s).mpr (List.mem_append_right _ hm)

theorem erase {M₁ M₂ : List Float64Node} {m : Float64Node} (h : Agrees d (M₁ ++ m :: M₂)) :
    Agrees (d.erase m.value) (M₁ ++ M₂) :=
  eraseAll (P := [m]) (h.perm List.perm_middle)

theorem insert_new (h : Agrees d ms) {v : String} (hv : ∀ m ∈ ms, m.value ≠ v) (s : Binary64) :
    Agrees (d.insert v s) (ms ++ [⟨v,s⟩]) := by
  refine ⟨?_,fun v' s' => ?_⟩
  · rw [List.map_append,List.nodup_append]
    refine ⟨h.nodup,List.nodup_singleton _,fun a ha b hb => ?_⟩
    obtain ⟨m,hm,rfl⟩ := List.mem_map.mp ha
    rw [List.map_singleton,List.mem_singleton] at hb
    rw [hb]
    exact hv m hm
  · rw [Assoc.get?_insert,List.mem_append,List.mem_singleton,Float64Node.mk.injEq]
    by_cases hv' : v' = v
    · subst hv'
      rw [if_pos rfl,Option.some.injEq]
      constructor
      · rintro rfl
        exact .inr ⟨rfl,rfl⟩
      · rintro (hm | ⟨-,rfl⟩)
        · exact absurd rfl (hv _ hm)
        · rfl
    · rw [if_neg hv',h.get]
      constructor
      · exact .inl
      · rintro (hm | ⟨hm,-⟩)
        · exact hm
        · exact absurd hm hv'

theorem update {M₁ M₂ : List Float64Node} {v : String} {s₀ : Binary64}
    (h : Agrees d (M₁ ++ ⟨v,s₀⟩ :: M₂)) (s : Binary64) :
    Agrees (d.insert v s) (M₁ ++ M₂ ++ [⟨v,s⟩]) := by
  have he : Agrees (d.erase v) (M₁ ++ M₂) := h.erase
  refine (he.insert_new (he.get_none.mp (Assoc.get?_erase_self d v)) s).congr fun v' => ?_
  rw [Assoc.get?_insert,Assoc.get?_insert,Assoc.get?_erase]
  split_ifs <;> rfl

end Agrees

/-- The invariant of a `Float64Set` whose list holds the nodes `es`. -/
structure Float64Set.Invariant (z : Float64Set) (es : List Nat) : Prop where
  chain : z.list.Chain es
  agrees : Agrees z.dict (z.list.members es)

theorem randomLevel_pos (zeros : Nat) : 1 ≤ randomLevel zeros := by
  unfold randomLevel
  split <;> simp [maxLevel]

theorem randomLevel_le (zeros : Nat) : randomLevel zeros ≤ maxLevel := by
  unfold randomLevel
  split <;> omega

namespace Float64List

variable {l : Float64List} {es : List Nat}

@[simp] theorem members_append (A B : List Nat) : l.members (A ++ B) = l.members A ++ l.members B := by
  simp [members]

@[simp] theorem members_nil : l.members [] = [] := rfl

@[simp] theorem members_cons (x : Nat) (A : List Nat) :
    l.members (x :: A) = ⟨(l.node x).value,(l.node x).score⟩ :: l.members A := rfl

theorem Chain.lt_of_split_left (hc : l.Chain es) {A B : List Nat} {x : Nat} (hes : es = A ++ x :: B) :
    ∀ a ∈ A, (l.node a).key < (l.node x).key := by
  have hs := hc.sorted
  rw [hes,List.pairwise_append] at hs
  exact fun a ha => hs.2.2 a ha x List.mem_cons_self

theorem key_eq_target (n : ListNode) : n.key = target n.score n.value := rfl

end Float64List

namespace Float64Set

variable {z : Float64Set} {es : List Nat}

theorem newFloat64_invariant : NewFloat64.Invariant [] := by
  refine ⟨⟨by simp,by simp [NewFloat64,newFloat64List,header],by simp,?_,.inl ⟨rfl,rfl⟩,?_,?_,
    by simp,by simp,by simp,rfl,rfl⟩,⟨by simp [members],fun v s => ?_⟩⟩
  · simp [NewFloat64,newFloat64List,maxLevel]
  · -- the header alone, with no link
    intro pre a post hs i hi
    cases pre with
    | nil =>
      obtain ⟨rfl,rfl⟩ := List.cons.inj hs
      simp [NewFloat64,newFloat64List,loadNext,loadSpan,node,newFloat64ListNode]
    | cons b pre => simp at hs
  · intro i _
    simp [NewFloat64,newFloat64List,loadNext,loadSpan,node,newFloat64ListNode]
  · simp [NewFloat64,members,Assoc.get?_empty]

/-- A value `dict` holds is on the list, at one node, whose key is the search key of its
entry, and no other node holds the value. -/
theorem Invariant.find (hz : z.Invariant es) {value : String} {s : Binary64}
    (hg : z.dict.get? value = some s) :
    ∃ A x B, es = A ++ x :: B ∧ (z.list.node x).value = value ∧ (z.list.node x).score = s ∧
      (∀ a ∈ A, (z.list.node a).key < target s value) ∧
      (∀ n ∈ A ++ B, (z.list.node n).value ≠ value) := by
  obtain ⟨m,hm,hme⟩ := List.mem_map.mp ((hz.agrees.get value s).mp hg)
  simp only [Float64Node.mk.injEq] at hme
  obtain ⟨A,B,hes⟩ := List.append_of_mem hm
  have ha := hz.agrees
  rw [hes,members_append,members_cons] at ha
  have he := ha.erase
  rw [hme.1] at he
  have hv := he.get_none.mp (Assoc.get?_erase_self z.dict value)
  refine ⟨A,m,B,hes,hme.1,hme.2,fun a ha => ?_,fun n hn => ?_⟩
  · rw [← hme.1,← hme.2]
    exact hz.chain.lt_of_split_left hes a ha
  · exact hv ⟨_,_⟩ (by rw [← members_append]; exact List.mem_map_of_mem hn)

/-- `Insert` of a value `dict` lacks, with the `dict` entry `Add` and `IncrBy` make. -/
theorem Invariant.insert (hz : z.Invariant es) {value : String} {score : Binary64}
    (hg : z.dict.get? value = none) (hs : score.isNaN = false) (zeros : Nat) :
    ∃ es', (⟨z.dict.insert value score,(z.list.Insert score value (randomLevel zeros)).1⟩ :
      Float64Set).Invariant es' := by
  have hv : ∀ n ∈ es, (z.list.node n).value ≠ value := fun n hn =>
    hz.agrees.get_none.mp hg ⟨_,_⟩ (List.mem_map_of_mem hn)
  obtain ⟨A,B,hes,-,-,hc⟩ := hz.chain.insert hs hv (randomLevel_pos zeros) (randomLevel_le zeros)
  refine ⟨_,hc,?_⟩
  have hold : ∀ m ∈ A ++ B, m ≠ z.list.fresh := fun m hm e =>
    Nat.lt_irrefl _ (e ▸ hz.chain.allocated m (.tail _ (hes ▸ hm)))
  have hkeep : ∀ C : List Nat, (∀ m ∈ C, m ≠ z.list.fresh) →
      (z.list.Insert score value (randomLevel zeros)).1.members C = z.list.members C :=
    fun C hC => members_congr fun m hm => by
      rw [(Insert_entry m).1,(Insert_entry m).2,if_neg (hC m hm),if_neg (hC m hm)]
      exact ⟨rfl,rfl⟩
  have hnew : ((z.list.Insert score value (randomLevel zeros)).1.node z.list.fresh).score = score ∧
      ((z.list.Insert score value (randomLevel zeros)).1.node z.list.fresh).value = value := by
    rw [(Insert_entry _).1,(Insert_entry _).2,if_pos rfl,if_pos rfl]
    exact ⟨rfl,rfl⟩
  rw [members_append,members_cons,hnew.1,hnew.2,
    hkeep A fun m hm => hold m (List.mem_append_left _ hm),
    hkeep B fun m hm => hold m (List.mem_append_right _ hm)]
  have ha := hz.agrees.insert_new (fun m hm => hz.agrees.get_none.mp hg m hm) score
  rw [hes,members_append] at ha
  exact ha.perm ((List.perm_append_singleton _ _).trans List.perm_middle.symm)

/-- `UpdateScore` of a value `dict` holds, with the new `dict` entry. -/
theorem Invariant.updateScore (hz : z.Invariant es) {value : String} {oldScore newScore : Binary64}
    (hg : z.dict.get? value = some oldScore) (hn : newScore.isNaN = false) (zeros : Nat) :
    ∃ es', (⟨z.dict.insert value newScore,
      (z.list.UpdateScore oldScore value newScore (randomLevel zeros)).1⟩ : Float64Set).Invariant es' := by
  obtain ⟨A,x,B,hes,hxv,hxs,hA,hv⟩ := hz.find hg
  have hx : (z.list.node x).key = target oldScore value := by rw [key_eq_target,hxv,hxs]
  have hs : oldScore.isNaN = false := hxs ▸ hz.chain.notNaN x (by rw [hes]; simp)
  obtain ⟨es',hc,hperm⟩ := hz.chain.updateScore hes hA hx hs hn hv (randomLevel_pos zeros)
    (randomLevel_le zeros)
  refine ⟨es',hc,?_⟩
  have ha := hz.agrees
  rw [hes,members_append,members_cons,hxv,hxs] at ha
  rw [members_append] at hperm
  exact (ha.update newScore).perm hperm.symm

theorem Invariant.delete (hz : z.Invariant es) {value : String} {score : Binary64}
    (hg : z.dict.get? value = some score) :
    ∃ es', (⟨z.dict.erase value,(z.list.Delete score value).1⟩ : Float64Set).Invariant es' := by
  obtain ⟨A,x,B,hes,hxv,hxs,hA,-⟩ := hz.find hg
  have hx : (z.list.node x).key = target score value := by rw [key_eq_target,hxv,hxs]
  have hs : score.isNaN = false := hxs ▸ hz.chain.notNaN x (by rw [hes]; simp)
  obtain ⟨hD,hc⟩ := hz.chain.delete hes hA hx hs
  refine ⟨A ++ B,hc,?_⟩
  obtain ⟨-,-,-,he⟩ := deleteNode_frame (l := z.list) (x := x) (u := (z.list.searchBefore score value).1)
  rw [hD,members_congr fun m _ => he m]
  have ha := hz.agrees
  rw [hes,members_append,members_cons] at ha
  have := ha.erase
  rw [hxv] at this
  rwa [members_append]

/-- A range deletion's result, with the dictionary it returns, keeps the invariant. -/
theorem Invariant.rangeDeleted (hz : z.Invariant es) {A P Q : List Nat} (hes : es = A ++ P ++ Q)
    {d : Float64List × Assoc String Binary64 × List Float64Node}
    (hd : RangeDeleted z.list z.dict (A ++ Q) P d) :
    (⟨d.2.1,d.1⟩ : Float64Set).Invariant (A ++ Q) := by
  refine ⟨hd.chain,?_⟩
  rw [hd.dict,members_congr fun m _ => hd.entry m]
  have ha := hz.agrees
  rw [hes,members_append,members_append] at ha
  exact (ha.perm (by simpa using List.perm_append_comm_assoc (z.list.members A) _ _)).eraseAll

/-! ### The methods -/

theorem Invariant.add (hz : z.Invariant es) (score : Binary64) (value : String) (zeros : Nat) :
    ∃ es', (z.Add score value zeros).1.Invariant es' := by
  unfold Add
  split_ifs with hn
  · exact ⟨es,hz⟩
  · have hn' : score.isNaN = false := by simpa using hn
    cases hg : z.dict.get? value with
    | none => exact hz.insert hg hn' zeros
    | some old =>
      dsimp only
      split_ifs
      · exact hz.updateScore hg hn' zeros
      · exact ⟨es,hz⟩

theorem Invariant.remove (hz : z.Invariant es) (value : String) :
    ∃ es', (z.Remove value).1.Invariant es' := by
  unfold Remove
  cases hg : z.dict.get? value with
  | none => exact ⟨es,hz⟩
  | some score => exact hz.delete hg

variable (add : Binary64 → Binary64 → Binary64)

theorem Invariant.incrBy (hz : z.Invariant es) (incr : Binary64) (value : String) (zeros : Nat) :
    ∃ es', (z.IncrBy add incr value zeros).1.Invariant es' := by
  unfold IncrBy
  cases hg : z.dict.get? value with
  | none =>
    dsimp only
    split_ifs with hn
    · exact ⟨es,hz⟩
    · exact hz.insert hg (by simpa using hn) zeros
  | some old =>
    dsimp only
    split_ifs with hn hn'
    · exact ⟨es,hz⟩
    · exact ⟨es,hz⟩
    · exact hz.updateScore hg (by simpa using hn') zeros

theorem take_drop_split {α : Type} (xs : List α) (s e : Nat) :
    xs = xs.take s ++ (xs.take e).drop s ++ xs.drop (max s e) := by
  rw [List.drop_take,List.append_assoc,show max s e = s + (e - s) by omega,← List.drop_drop,
    List.take_append_drop,List.take_append_drop]

theorem Invariant.removeRangeByRank (hz : z.Invariant es) (start stop : Int) :
    ∃ es', (z.RemoveRangeByRank start stop).1.Invariant es' :=
  ⟨_,hz.rangeDeleted (take_drop_split es _ _) (hz.chain.deleteRangeByRank _ _ z.dict)⟩

theorem Invariant.removeRangeByScoreWithOpt (hz : z.Invariant es) (min max : Binary64)
    (opt : RangeOpt) : ∃ es', (z.RemoveRangeByScoreWithOpt min max opt).1.Invariant es' := by
  obtain ⟨A,P,Q,hes,-,-,hd⟩ := hz.chain.deleteRangeByScore min max opt z.dict
  exact ⟨_,hz.rangeDeleted hes hd⟩

/-- The step lemma: every method that changes the set keeps the invariant. -/
theorem Invariant.step (hz : z.Invariant es) (op : Float64SetOp) :
    ∃ es', (float64SetStep add z op).Invariant es' := by
  cases op with
  | add score value zeros => exact hz.add score value zeros
  | remove value => exact hz.remove value
  | incrBy incr value zeros => exact hz.incrBy add incr value zeros
  | removeRangeByRank start stop => exact hz.removeRangeByRank start stop
  | removeRangeByScoreWithOpt min max opt => exact hz.removeRangeByScoreWithOpt min max opt

/-- The run lemma: from a set with the invariant, every run of methods keeps it. -/
theorem Invariant.run (hz : z.Invariant es) (ops : List Float64SetOp) :
    ∃ es', (Runs.run (float64SetStep add) z ops).Invariant es' :=
  Runs.run_invariant (P := fun (z : Float64Set) => ∃ es, z.Invariant es) (fun _ op ⟨_,h⟩ => h.step add op) ops
    ⟨es,hz⟩

/-- Every set a run of `Add`, `Remove`, `IncrBy`, `RemoveRangeByRank` and
`RemoveRangeByScoreWithOpt` reaches from `NewFloat64`, whatever `randomLevel` draws, has
the invariant. -/
theorem float64Set_invariant (ops : List Float64SetOp) :
    ∃ es, (Runs.run (float64SetStep add) NewFloat64 ops).Invariant es :=
  newFloat64_invariant.run add ops

/-! ### Range removals -/

theorem members_filter (l : Float64List) (xs : List Nat) (p : Binary64 → Bool) :
    (l.members xs).filter (fun m => p m.score) = l.members (xs.filter fun n => p (l.node n).score) := by
  simp only [members,List.filter_map]
  rfl

/-- `RemoveRangeByScoreWithOpt` removes and returns, in order, the members whose score is in
the range, and leaves the others. -/
theorem Invariant.removeRangeByScoreWithOpt_spec (hz : z.Invariant es) (min max : Binary64)
    (opt : RangeOpt) :
    (z.RemoveRangeByScoreWithOpt min max opt).2 =
        (z.list.members es).filter (fun m => scoreInRange min max opt m.score) ∧
      ∃ es', (z.RemoveRangeByScoreWithOpt min max opt).1.Invariant es' ∧
        (z.RemoveRangeByScoreWithOpt min max opt).1.list.members es' =
          (z.list.members es).filter (fun m => !scoreInRange min max opt m.score) := by
  obtain ⟨A,P,Q,hes,hP,hAQ,hd⟩ := hz.chain.deleteRangeByScore min max opt z.dict
  set f : Nat → Bool := fun n => scoreInRange min max opt (z.list.node n).score
  have hA : ∀ n ∈ A, f n = false := fun n hn => hAQ n (List.mem_append_left _ hn)
  have hQ : ∀ n ∈ Q, f n = false := fun n hn => hAQ n (List.mem_append_right _ hn)
  have hin : es.filter f = P := by
    rw [hes,List.filter_append,List.filter_append,List.filter_eq_nil_iff.mpr (fun n hn => by simp [hA n hn]),
      List.filter_eq_self.mpr hP,List.filter_eq_nil_iff.mpr (fun n hn => by simp [hQ n hn])]
    simp
  have hout : es.filter (fun n => !f n) = A ++ Q := by
    rw [hes,List.filter_append,List.filter_append,List.filter_eq_self.mpr (fun n hn => by simp [hA n hn]),
      List.filter_eq_nil_iff.mpr (fun n hn => by simp [f,hP n hn]),
      List.filter_eq_self.mpr (fun n hn => by simp [hQ n hn])]
    simp
  refine ⟨?_,A ++ Q,hz.rangeDeleted hes hd,?_⟩
  · rw [members_filter,show (fun n => scoreInRange min max opt (z.list.node n).score) = f from rfl,hin]
    exact hd.removed
  · rw [members_filter (p := fun s => !scoreInRange min max opt s),
      show (fun n => !scoreInRange min max opt (z.list.node n).score) = fun n => !f n from rfl,hout]
    exact members_congr fun m _ => hd.entry m

/-- Below `MaxInt`, the `+1` of `RemoveRangeByRank` on a normalised position does not wrap. -/
theorem wrap_normalized_succ {len x : Int} (hlen : 0 ≤ len ∧ len < 2 ^ 63)
    (hx : -2 ^ 63 ≤ x ∧ x < 2 ^ 63 - 1) :
    GoSlice.wrap ((if x < 0 then len + x else x) + 1) = (if x < 0 then len + x else x) + 1 := by
  apply GoSlice.wrap_of_lt <;> split <;> omega

theorem removeRangeByRank_eq {start stop : Int} (hlen : 0 ≤ z.Len ∧ z.Len < 2 ^ 63)
    (hstart : -2 ^ 63 ≤ start ∧ start < 2 ^ 63 - 1) (hstop : -2 ^ 63 ≤ stop ∧ stop < 2 ^ 63 - 1) :
    z.RemoveRangeByRank start stop =
      let r := z.list.DeleteRangeByRank ((if start < 0 then z.Len + start else start) + 1)
        ((if stop < 0 then z.Len + stop else stop) + 1) z.dict
      (⟨r.2.1,r.1⟩,r.2.2) := by
  dsimp only [RemoveRangeByRank]
  rw [@wrap_normalized_succ z.list.length start hlen hstart,
    @wrap_normalized_succ z.list.length stop hlen hstop]
  rfl

/-- `RemoveRangeByRank` removes and returns the members at the 0-based positions `start` to
`stop`, a negative one counted from the end, and leaves the others. -/
theorem Invariant.removeRangeByRank_spec (hz : z.Invariant es) {start stop : Int}
    (hstart : -2 ^ 63 ≤ start ∧ start < 2 ^ 63 - 1) (hstop : -2 ^ 63 ≤ stop ∧ stop < 2 ^ 63 - 1)
    (hlen : z.Len < 2 ^ 63) :
    (z.RemoveRangeByRank start stop).2 =
        ((z.list.members es).take ((if stop < 0 then z.Len + stop else stop) + 1).toNat).drop
          (if start < 0 then z.Len + start else start).toNat ∧
      ∃ es', (z.RemoveRangeByRank start stop).1.Invariant es' ∧
        (z.RemoveRangeByRank start stop).1.list.members es' =
          (z.list.members es).take (if start < 0 then z.Len + start else start).toNat ++
            (z.list.members es).drop (max (if start < 0 then z.Len + start else start).toNat
              ((if stop < 0 then z.Len + stop else stop) + 1).toNat) := by
  have hlen' : 0 ≤ z.Len ∧ z.Len < 2 ^ 63 := by
    have hl : z.list.length = es.length := hz.chain.length
    exact ⟨by rw [Len,hl]; omega,hlen⟩
  rw [removeRangeByRank_eq hlen' hstart hstop]
  have hd := hz.chain.deleteRangeByRank ((if start < 0 then z.Len + start else start) + 1)
    ((if stop < 0 then z.Len + stop else stop) + 1) z.dict
  rw [Int.add_sub_cancel] at hd
  refine ⟨?_,_,hz.rangeDeleted (take_drop_split es _ _) hd,?_⟩
  · rw [hd.removed]
    simp only [members,List.map_drop,List.map_take]
  · refine (members_congr fun m _ => hd.entry m).trans ?_
    simp only [members,List.map_append,List.map_drop,List.map_take]

/-- Three members, scored 1, 2 and 4. -/
def threeMembers : List Float64SetOp :=
  [.add ⟨false,1023,0⟩ "a" 0,.add ⟨false,1024,0⟩ "b" 0,.add ⟨false,1025,0⟩ "c" 0]

end Float64Set

end Gkit.Zset
