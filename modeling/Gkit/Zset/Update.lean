import Gkit.Zset.Invariant

/-!
`UpdateScore` of `structure/zset/skiplist.go` against a deletion and a re-insertion, and
`Add` and `IncrBy` of `structure/zset/zset.go` on a member against `Remove` and `Add`. A set
with the invariant lists, in key order, exactly the entries its dictionary maps; so two such
sets whose dictionaries agree hold the same sorted list, whatever their levels and links, and
the comparisons are made through the dictionaries.
-/

namespace Gkit.Zset

open Redis Float64List

namespace Float64Set

variable {z z₁ z₂ : Float64Set} {es es₁ es₂ : List Nat}

theorem Invariant.members_sorted (hz : z.Invariant es) :
    (z.list.members es).Pairwise fun a b => target a.score a.value < target b.score b.value :=
  hz.chain.sorted.map _ fun _ _ h => h

theorem Invariant.mem_members (hz : z.Invariant es) (m : Float64Node) :
    m ∈ z.list.members es ↔ z.dict.get? m.value = some m.score :=
  (hz.agrees.get m.value m.score).symm

/-- The sorted list of a set with the invariant is a function of its dictionary: two sets
whose dictionaries agree hold the same members in the same order. -/
theorem Invariant.members_eq (hz₁ : z₁.Invariant es₁) (hz₂ : z₂.Invariant es₂)
    (hd : ∀ v, z₁.dict.get? v = z₂.dict.get? v) :
    z₁.list.members es₁ = z₂.list.members es₂ := by
  have hperm : (z₁.list.members es₁).Perm (z₂.list.members es₂) := by
    refine (List.perm_ext_iff_of_nodup (hz₁.agrees.nodup.of_map _)
      (hz₂.agrees.nodup.of_map _)).mpr fun m => ?_
    rw [hz₁.mem_members, hz₂.mem_members, hd]
  -- the order is strict, so a permutation of a sorted list sorted again is the list itself
  exact hperm.eq_of_pairwise (fun _ _ _ _ hab hba => absurd hba (lt_asymm hab))
    hz₁.members_sorted hz₂.members_sorted

/-- Two sets with the invariant that hold the same members in the same order. -/
def SameMembers (z₁ z₂ : Float64Set) : Prop :=
  ∃ es₁ es₂, z₁.Invariant es₁ ∧ z₂.Invariant es₂ ∧ z₁.list.members es₁ = z₂.list.members es₂

theorem sameMembers_of_dict (h₁ : ∃ es, z₁.Invariant es) (h₂ : ∃ es, z₂.Invariant es)
    (hd : ∀ v, z₁.dict.get? v = z₂.dict.get? v) : SameMembers z₁ z₂ := by
  obtain ⟨es₁, hz₁⟩ := h₁
  obtain ⟨es₂, hz₂⟩ := h₂
  exact ⟨es₁, es₂, hz₁, hz₂, hz₁.members_eq hz₂ hd⟩

theorem get?_erase_insert (d : Assoc String Binary64) (value v : String) (s : Binary64) :
    (d.insert value s).get? v = ((d.erase value).insert value s).get? v := by
  rw [Assoc.get?_insert, Assoc.get?_insert, Assoc.get?_erase]
  split_ifs <;> rfl

/-- `Remove` and then `Add` of a value the set holds: its node is deleted, and a new one
inserted. -/
theorem remove_add {value : String} {oldScore newScore : Binary64}
    (hg : z.dict.get? value = some oldScore) (hn : newScore.isNaN = false) (zeros : Nat) :
    ((z.Remove value).1.Add newScore value zeros).1 =
      ⟨(z.dict.erase value).insert value newScore,
        ((z.list.Delete oldScore value).1.Insert newScore value (randomLevel zeros)).1⟩ := by
  simp [Remove, Add, hg, hn]

theorem Invariant.reinsert (hz : z.Invariant es) {value : String} {oldScore newScore : Binary64}
    (hg : z.dict.get? value = some oldScore) (hn : newScore.isNaN = false) (zeros : Nat) :
    ∃ es', (⟨(z.dict.erase value).insert value newScore,
      ((z.list.Delete oldScore value).1.Insert newScore value (randomLevel zeros)).1⟩ :
        Float64Set).Invariant es' := by
  obtain ⟨es', hz'⟩ := hz.delete hg
  exact hz'.insert (Assoc.get?_erase_self z.dict value) hn zeros

theorem updateScore_same_as_reinsert (add : Binary64 → Binary64 → Binary64)
    (hz : z.Invariant es) {value : String} {oldScore newScore : Binary64}
    (hg : z.dict.get? value = some oldScore) (hn : newScore.isNaN = false) (zeros zeros' : Nat) :
    SameMembers
        ⟨z.dict.insert value newScore,
          (z.list.UpdateScore oldScore value newScore (randomLevel zeros)).1⟩
        ⟨(z.dict.erase value).insert value newScore,
          ((z.list.Delete oldScore value).1.Insert newScore value (randomLevel zeros')).1⟩ ∧
      (newScore.beq oldScore = false →
        SameMembers (z.Add newScore value zeros).1 ((z.Remove value).1.Add newScore value zeros').1) ∧
      (∀ incr, incr.isNaN = false → add oldScore incr = newScore →
        SameMembers (z.IncrBy add incr value zeros).1
          ((z.Remove value).1.Add newScore value zeros').1) := by
  have hsame := sameMembers_of_dict (hz.updateScore hg hn zeros) (hz.reinsert hg hn zeros')
    fun v => get?_erase_insert z.dict value v newScore
  refine ⟨hsame, fun hb => ?_, fun incr hi hadd => ?_⟩
  · -- a new score `!=` the old one takes `UpdateScore`
    have hA : (z.Add newScore value zeros).1 = ⟨z.dict.insert value newScore,
        (z.list.UpdateScore oldScore value newScore (randomLevel zeros)).1⟩ := by
      simp [Add, hg, hn, hb]
    rw [hA, remove_add hg hn]
    exact hsame
  · have hI : (z.IncrBy add incr value zeros).1 = ⟨z.dict.insert value newScore,
        (z.list.UpdateScore oldScore value newScore (randomLevel zeros)).1⟩ := by
      simp [IncrBy, hg, hi, hadd, hn]
    rw [hI, remove_add hg hn]
    exact hsame

/-- On the set of `threeMembers`, `Add(8, "a")` moves `a` from the first rank to the last, and
the set is the one `Remove("a")` and `Add(8, "a")` give. -/
theorem updateScore_same_as_reinsert_moves :
    (Runs.run (float64SetStep fun x _ => x) NewFloat64 threeMembers).Rank "a" = 0 ∧
      ((Runs.run (float64SetStep fun x _ => x) NewFloat64 threeMembers).Add ⟨false,1026,0⟩ "a" 0).1.Rank "a" = 2 ∧
      ∃ es, (Runs.run (float64SetStep fun x _ => x) NewFloat64 threeMembers).Invariant es ∧
        SameMembers ((Runs.run (float64SetStep fun x _ => x) NewFloat64 threeMembers).Add ⟨false,1026,0⟩ "a" 0).1
          (((Runs.run (float64SetStep fun x _ => x) NewFloat64 threeMembers).Remove "a").1.Add
            ⟨false,1026,0⟩ "a" 0).1 := by
  obtain ⟨es, hz⟩ := newFloat64_invariant.run (fun x _ => x) threeMembers
  have hg : (Runs.run (float64SetStep fun x _ => x) NewFloat64 threeMembers).dict.get? "a" =
      some ⟨false,1023,0⟩ := by decide +kernel
  refine ⟨by decide +kernel, by decide +kernel, es, hz, ?_⟩
  exact (updateScore_same_as_reinsert (fun x _ => x) hz hg (by decide) 0 0).2.1 (by decide)

/-- `Add(-0, v)` on a member scored `+0` keeps `+0`, since `-0 == +0`; removing the member and
adding it again stores `-0`. -/
theorem add_negZero_keeps_posZero :
    ((NewFloat64.Add Binary64.zero "a" 0).1.Add ⟨true, 0, 0⟩ "a" 0).1.Score "a" =
        (Binary64.zero, true) ∧
      (((NewFloat64.Add Binary64.zero "a" 0).1.Remove "a").1.Add ⟨true, 0, 0⟩ "a" 0).1.Score "a" =
        (⟨true, 0, 0⟩, true) := by
  decide +kernel

end Float64Set

end Gkit.Zset
