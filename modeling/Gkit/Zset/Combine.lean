import Gkit.Zset.Reads
import Mathlib

/-!
`UnionFloat64` and `InterFloat64` of `structure/zset/zset.go`, the replacements of Redis's
`ZUNIONSTORE` and `ZINTERSTORE`. Both read their arguments through `Range(0, -1)` and `Score`
and build the result with `Add` on a fresh set. `UnionFloat64` first sums into a Go map and
then ranges over it, in an order Go leaves unspecified: `visit` is that order, any
permutation of the map's entries. `zeros v` is the count of zero draws `randomLevel` makes
when `v` is inserted into the result. Neither changes what the result holds: a value's score
is the sum of its scores in the sets, or it is absent when that sum is NaN.
-/

namespace Gkit.Zset

open Redis Float64List

variable (add : Binary64 → Binary64 → Binary64)

/-! ### The model -/

/-- One pass of the first loop of `UnionFloat64`: `score := n.Score; if previous, ok :=
scores[n.Value]; ok { score += previous }; scores[n.Value] = score`. -/
def unionAccumulate (scores : Assoc String Binary64) (n : Float64Node) : Assoc String Binary64 :=
  let score := match scores.get? n.value with
    | some previous => add n.score previous
    | none => n.score
  scores.insert n.value score

/-- The map `scores` after the first loop of `UnionFloat64`. -/
def unionScores (zs : List Float64Set) : Assoc String Binary64 :=
  zs.foldl (fun scores z => (z.Range 0 (-1)).foldl (unionAccumulate add) scores) Assoc.empty

/-- `UnionFloat64`: `for value, score := range scores { dest.Add(score, value) }`. -/
def UnionFloat64 (visit : List (String × Binary64) → List (String × Binary64))
    (zeros : String → Nat) (zs : List Float64Set) : Float64Set :=
  (visit (unionScores add zs).entries).foldl (fun dest p => (dest.Add p.2 p.1 (zeros p.1)).1)
    NewFloat64

/-- The inner loop of `InterFloat64` over `zs[1:]`: the score plus the value's score in each
set, or `none` at the first set without it, where the loop breaks with `ok = false`. -/
def interSum (value : String) : Binary64 → List Float64Set → Option Binary64
  | score, [] => some score
  | score, z :: rest =>
    match z.Score value with
    | (otherScore, true) => interSum value (add score otherScore) rest
    | (_, false) => none

/-- `InterFloat64`: each node of the first set whose value every other set holds is added
with the sum of its scores. -/
def InterFloat64 (zeros : String → Nat) : List Float64Set → Float64Set
  | [] => NewFloat64
  | z :: rest =>
    (z.Range 0 (-1)).foldl (fun dest n =>
      match interSum add n.value n.score rest with
      | some score => (dest.Add score n.value (zeros n.value)).1
      | none => dest) NewFloat64

/-! ### What the two are for

A value's score in a union is the sum of its scores in the sets that hold it, in the order of
the sets, each new score added to the sum so far as Go's `score += previous` does. In an
intersection it is its score in the first set plus its scores in the others, in order. -/

/-- The sum so far of a value's scores, after one more set. -/
def unionStep (v : String) (acc : Option Binary64) (z : Float64Set) : Option Binary64 :=
  match z.dict.get? v with
  | some s => some (match acc with
    | some previous => add s previous
    | none => s)
  | none => acc

/-- The score of `v` in the union of `zs`, before NaN is dropped. -/
def unionTotal (zs : List Float64Set) (v : String) : Option Binary64 :=
  zs.foldl (unionStep add v) none

/-- The score of `v` in the intersection of `zs`, before NaN is dropped. -/
def interTotal : List Float64Set → String → Option Binary64
  | [], _ => none
  | z :: rest, v =>
    (z.dict.get? v).bind fun s => rest.foldlM (fun acc z => (z.dict.get? v).map (add acc)) s

/-! ### Reading a set whole -/

namespace Float64Set

variable {z : Float64Set} {es : List Nat}

theorem Invariant.range_all (hz : z.Invariant es) : z.Range 0 (-1) = z.list.members es := by
  rw [hz.range]
  simp [rankSlice]

theorem Invariant.find?_members (hz : z.Invariant es) (v : String) :
    ((z.list.members es).find? (·.value == v)).map Float64Node.score = z.dict.get? v := by
  cases hf : (z.list.members es).find? (·.value == v) with
  | none =>
    refine (hz.agrees.get_none.mpr fun m hm hmv => ?_).symm
    exact List.find?_eq_none.mp hf m hm (by simp [hmv])
  | some n =>
    have hv : n.value = v := by simpa using List.find?_some hf
    have hn := (hz.agrees.get v n.score).mpr (hv ▸ List.mem_of_find?_eq_some hf)
    rw [Option.map_some, hn]

/-- `Add` of a value the set lacks: the value joins with its score, unless the score is NaN. -/
theorem Add_get?_of_none {value : String} (hg : z.dict.get? value = none) (score : Binary64)
    (zeros : Nat) (v : String) :
    (z.Add score value zeros).1.dict.get? v =
      if v = value then (some score).filter (!·.isNaN) else z.dict.get? v := by
  unfold Add
  by_cases hn : score.isNaN = true
  · rw [if_pos hn]
    by_cases hv : v = value
    · simp [hv, hg, hn, Option.filter_some]
    · rw [if_neg hv]
  · have hn' : score.isNaN = false := by simpa using hn
    rw [if_neg hn, hg, Assoc.get?_insert]
    split_ifs <;> simp [Option.filter_some, hn']

/-- The loop that adds to a set, one by one, elements with distinct values it lacks: the set
keeps its invariant, an added value has its score unless that is NaN, and other values keep
theirs. `g` is the score the loop adds an element with, or `none` where it skips one. -/
theorem Invariant.foldl_add {α : Type} (key : α → String) (g : α → Option Binary64)
    (zeros : String → Nat) (step : Float64Set → α → Float64Set)
    (hstep : ∀ dest x, step dest x = match g x with
      | some s => (dest.Add s (key x) (zeros (key x))).1
      | none => dest)
    (xs : List α) (hxs : (xs.map key).Nodup) (hz : z.Invariant es)
    (hnew : ∀ x ∈ xs, z.dict.get? (key x) = none) :
    (∃ es', (xs.foldl step z).Invariant es') ∧ ∀ v, (xs.foldl step z).dict.get? v =
      match xs.find? (key · == v) with
      | some x => (g x).filter (!·.isNaN)
      | none => z.dict.get? v := by
  induction xs generalizing z es with
  | nil => exact ⟨⟨es, hz⟩, fun v => rfl⟩
  | cons x xs ih =>
    have hx := (List.nodup_cons.mp hxs).1
    have hinv : ∃ es', (step z x).Invariant es' := by
      rw [hstep]
      cases g x with
      | some s => exact hz.add s (key x) (zeros (key x))
      | none => exact ⟨es, hz⟩
    have hget : ∀ v, (step z x).dict.get? v =
        if v = key x then (g x).filter (!·.isNaN) else z.dict.get? v := by
      intro v
      rw [hstep]
      cases g x with
      | some s => exact Add_get?_of_none (hnew x List.mem_cons_self) s _ v
      | none =>
        split_ifs with hv
        · rw [hv, hnew x List.mem_cons_self, Option.filter_none]
        · rfl
    have hnew' : ∀ y ∈ xs, (step z x).dict.get? (key y) = none := by
      intro y hy
      have hyx : key y ≠ key x := fun h => hx (h ▸ List.mem_map_of_mem hy)
      rw [hget, if_neg hyx]
      exact hnew y (List.mem_cons_of_mem x hy)
    obtain ⟨es', hz'⟩ := hinv
    obtain ⟨hinv', hget'⟩ := ih (List.nodup_cons.mp hxs).2 hz' hnew'
    refine ⟨hinv', fun v => ?_⟩
    rw [List.foldl_cons, hget' v]
    by_cases hk : key x = v
    · subst hk
      have hnone : xs.find? (key · == key x) = none :=
        List.find?_eq_none.mpr fun y hy hyx => hx (by
          rw [← beq_iff_eq.mp hyx]
          exact List.mem_map_of_mem hy)
      rw [hnone, List.find?_cons_of_pos (by simp), hget, if_pos rfl]
    · rw [List.find?_cons_of_neg (by simpa using hk), hget, if_neg (Ne.symm hk)]

end Float64Set

open Float64Set

/-! ### Union -/

/-- One set's pass of the first loop adds its score to the sum of each value it holds. -/
theorem Float64Set.Invariant.foldl_unionAccumulate {z : Float64Set} {es : List Nat} (hz : z.Invariant es)
    (scores : Assoc String Binary64) (v : String) :
    ((z.Range 0 (-1)).foldl (unionAccumulate add) scores).get? v =
      unionStep add v (scores.get? v) z := by
  rw [hz.range_all, Assoc.get?_foldl_upsert Float64Node.value
    (fun previous n => match previous with
      | some previous => add n.score previous
      | none => n.score) (unionAccumulate add) (fun _ _ => rfl) _ hz.agrees.nodup]
  have hf := hz.find?_members v
  unfold unionStep
  cases h : (z.list.members es).find? (·.value == v) with
  | none =>
    rw [h, Option.map_none] at hf
    rw [← hf]
  | some n =>
    rw [h, Option.map_some] at hf
    rw [← hf]

theorem unionScores_get? (zs : List Float64Set) (hzs : ∀ z ∈ zs, ∃ es, z.Invariant es)
    (v : String) : (unionScores add zs).get? v = unionTotal add zs v := by
  unfold unionScores unionTotal
  suffices h : ∀ scores : Assoc String Binary64,
      (zs.foldl (fun scores z => (z.Range 0 (-1)).foldl (unionAccumulate add) scores) scores).get? v =
        zs.foldl (unionStep add v) (scores.get? v) from h Assoc.empty
  induction zs with
  | nil => intro scores; rfl
  | cons z zs ih =>
    intro scores
    obtain ⟨es, hz⟩ := hzs z List.mem_cons_self
    rw [List.foldl_cons, List.foldl_cons, ih (fun z' hz' => hzs z' (List.mem_cons_of_mem z hz')),
      hz.foldl_unionAccumulate add]

/-- `UnionFloat64` builds a set with the invariant in which each value of the given sets has
the sum of its scores, and is absent where that sum is NaN, whatever order Go ranges over
the map of sums in and whatever `randomLevel` draws. -/
theorem unionFloat64_scores (visit : List (String × Binary64) → List (String × Binary64))
    (hvisit : ∀ ps, (visit ps).Perm ps) (zeros : String → Nat) (zs : List Float64Set)
    (hzs : ∀ z ∈ zs, ∃ es, z.Invariant es) :
    (∃ es, (UnionFloat64 add visit zeros zs).Invariant es) ∧
      ∀ v, (UnionFloat64 add visit zeros zs).dict.get? v =
        (unionTotal add zs v).filter (!·.isNaN) := by
  have hperm := hvisit (unionScores add zs).entries
  have hnd : ((visit (unionScores add zs).entries).map Prod.fst).Nodup :=
    (hperm.map Prod.fst).nodup_iff.mpr (unionScores add zs).nodup
  obtain ⟨hinv, hget⟩ := newFloat64_invariant.foldl_add Prod.fst (fun p => some p.2) zeros
    (fun dest p => (dest.Add p.2 p.1 (zeros p.1)).1) (fun _ _ => rfl) _ hnd
    (fun _ _ => Assoc.get?_empty _)
  refine ⟨hinv, fun v => ?_⟩
  rw [UnionFloat64, hget v, Assoc.find?_key_perm hperm hnd v, ← unionScores_get? add zs hzs v]
  unfold Assoc.get?
  cases (unionScores add zs).entries.find? (·.1 == v) with
  | none => rfl
  | some p => rfl

/-- A stand-in for float64 addition in the samples: it keeps the later set's score. -/
def sampleAdd (x _ : Binary64) : Binary64 := x

/-- Two sets as the methods build them, `a` at 1 with `b` at 2, and `a` at 2 with `c` at 1. -/
def sampleSets : List Float64Set :=
  [Runs.run (float64SetStep sampleAdd) NewFloat64 [.add ⟨false,1023,0⟩ "a" 0, .add ⟨false,1024,0⟩ "b" 1],
    Runs.run (float64SetStep sampleAdd) NewFloat64 [.add ⟨false,1024,0⟩ "a" 0, .add ⟨false,1023,0⟩ "c" 0]]

theorem sampleSets_invariant : ∀ z ∈ sampleSets, ∃ es, z.Invariant es := by
  intro z hz
  simp only [sampleSets, List.mem_cons, List.not_mem_nil, or_false] at hz
  rcases hz with rfl | rfl
  · exact newFloat64_invariant.run sampleAdd _
  · exact newFloat64_invariant.run sampleAdd _

theorem unionFloat64_scores_sample :
    (∀ ps : List (String × Binary64), (id ps).Perm ps) ∧
      (∃ es, (UnionFloat64 sampleAdd id (fun _ => 0) sampleSets).Invariant es) ∧
      ∀ v, (UnionFloat64 sampleAdd id (fun _ => 0) sampleSets).dict.get? v =
        (unionTotal sampleAdd sampleSets v).filter (!·.isNaN) :=
  ⟨fun ps => List.Perm.refl ps,
    unionFloat64_scores sampleAdd id (fun ps => List.Perm.refl ps) (fun _ => 0) sampleSets
      sampleSets_invariant⟩

/-- `a` takes the later score, 2, as `b` has, and `c` has 1; the union lists them by score,
then by value. -/
example : ((UnionFloat64 sampleAdd id (fun _ => 0) sampleSets).Range 0 (-1)).map (·.value) =
    ["c", "a", "b"] := by
  decide +kernel

/-! ### Intersection -/

/-- The inner loop of `InterFloat64` is the sum over the other sets, stopped by the first
that lacks the value. -/
theorem interSum_eq (value : String) (rest : List Float64Set) (score : Binary64) :
    interSum add value score rest =
      rest.foldlM (fun acc z => (z.dict.get? value).map (add acc)) score := by
  induction rest generalizing score with
  | nil => rfl
  | cons z rest ih =>
    rw [List.foldlM_cons]
    unfold interSum Float64Set.Score
    cases z.dict.get? value with
    | none => rfl
    | some s => exact ih (add score s)

/-- `InterFloat64` builds a set with the invariant in which each value that every given set
holds has the sum of its scores, other values are absent, and so is a value whose sum is
NaN, whatever `randomLevel` draws. -/
theorem interFloat64_scores (zeros : String → Nat) (zs : List Float64Set)
    (hzs : ∀ z ∈ zs, ∃ es, z.Invariant es) :
    (∃ es, (InterFloat64 add zeros zs).Invariant es) ∧
      ∀ v, (InterFloat64 add zeros zs).dict.get? v =
        (interTotal add zs v).filter (!·.isNaN) := by
  cases zs with
  | nil => exact ⟨⟨[], newFloat64_invariant⟩, fun v => rfl⟩
  | cons z rest =>
    obtain ⟨es, hz⟩ := hzs z List.mem_cons_self
    obtain ⟨hinv, hget⟩ := newFloat64_invariant.foldl_add Float64Node.value
      (fun n => interSum add n.value n.score rest) zeros
      (fun dest n => match interSum add n.value n.score rest with
        | some score => (dest.Add score n.value (zeros n.value)).1
        | none => dest) (fun _ _ => rfl) _ hz.agrees.nodup (fun _ _ => Assoc.get?_empty _)
    rw [InterFloat64, hz.range_all]
    refine ⟨hinv, fun v => ?_⟩
    rw [hget v, interTotal, ← hz.find?_members v]
    cases h : (z.list.members es).find? (·.value == v) with
    | none => rfl
    | some n =>
      have hv : n.value = v := by simpa using List.find?_some h
      dsimp only
      rw [Option.map_some, Option.bind_some, ← interSum_eq, hv]

theorem interFloat64_scores_sample :
    (∃ es, (InterFloat64 sampleAdd (fun _ => 0) sampleSets).Invariant es) ∧
      ∀ v, (InterFloat64 sampleAdd (fun _ => 0) sampleSets).dict.get? v =
        (interTotal sampleAdd sampleSets v).filter (!·.isNaN) :=
  interFloat64_scores sampleAdd (fun _ => 0) sampleSets sampleSets_invariant

/-- Only `a` is in both sets. -/
example : ((InterFloat64 sampleAdd (fun _ => 0) sampleSets).Range 0 (-1)).map (·.value) = ["a"] := by
  decide +kernel

end Gkit.Zset
