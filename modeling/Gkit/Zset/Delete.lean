import Gkit.Zset.Insert

/-!
`deleteNode` keeps the representation invariant, and with it `Delete` and `UpdateScore`.
Its three phases are described one at a time: `unlinkLevels` is exactly the pointer
update `SkipList.canonical_erase` takes, `unlinkPrev` hands `x`'s back pointer to its
successor, and `dropLevels` lowers `highestLevel` only over levels no node reaches.
-/

namespace Gkit.Zset

namespace Float64List

open SkipList Runs

variable {l : Float64List} {x : Nat} {u : Nat → Nat} {r : Nat → Int} {es : List Nat}

/-! ### Unlinking -/

theorem unlinkLevel_loadNext (i m j : Nat) :
    (l.unlinkLevel x u i).loadNext m j =
      if m = u i ∧ j = i ∧ l.loadNext (u i) i = some x then l.loadNext x i else l.loadNext m j := by
  unfold unlinkLevel storeNextAndSpan
  by_cases h : l.loadNext (u i) i = some x <;> simp [h]

theorem unlinkLevel_loadSpan (i m j : Nat) :
    (l.unlinkLevel x u i).loadSpan m j =
      if m = u i ∧ j = i then
        (if l.loadNext (u i) i = some x then l.loadSpan x i + l.loadSpan (u i) i - 1
          else l.loadSpan (u i) i - 1)
      else l.loadSpan m j := by
  unfold unlinkLevel storeNextAndSpan
  by_cases h : l.loadNext (u i) i = some x <;> simp [h]

/-- Level `i` of the loop reads only level `i`, which the levels before it left alone. -/
theorem unlinkLevels_gen (n m j : Nat) :
    (forRange (fun l i => l.unlinkLevel x u i) 0 n l).loadNext m j =
        (if j < n ∧ m = u j ∧ l.loadNext (u j) j = some x then l.loadNext x j
          else l.loadNext m j) ∧
      (forRange (fun l i => l.unlinkLevel x u i) 0 n l).loadSpan m j =
        (if j < n ∧ m = u j then
          (if l.loadNext (u j) j = some x then l.loadSpan x j + l.loadSpan (u j) j - 1
            else l.loadSpan (u j) j - 1)
        else l.loadSpan m j) := by
  induction n generalizing m j with
  | zero => simp
  | succ k ih =>
    rw [forRange_succ,Nat.zero_add,unlinkLevel_loadNext,unlinkLevel_loadSpan,(ih _ _).1,(ih _ _).1,
      (ih _ _).2,(ih _ _).1,(ih _ _).2,(ih _ _).2]
    by_cases hjk : j = k
    · subst hjk
      by_cases hm : m = u j <;> simp [hm]
    · have : j < k + 1 ↔ j < k := by omega
      simp [hjk,this]

theorem unlinkLevels_loadNext (m j : Nat) :
    (l.unlinkLevels x u).loadNext m j =
      if j < l.highestLevel ∧ m = u j ∧ l.loadNext (u j) j = some x then l.loadNext x j
      else l.loadNext m j :=
  (unlinkLevels_gen _ _ _).1

theorem unlinkLevels_loadSpan (m j : Nat) :
    (l.unlinkLevels x u).loadSpan m j =
      if j < l.highestLevel ∧ m = u j then
        (if l.loadNext (u j) j = some x then l.loadSpan x j + l.loadSpan (u j) j - 1
          else l.loadSpan (u j) j - 1)
      else l.loadSpan m j :=
  (unlinkLevels_gen _ _ _).2

theorem linksOnly_unlinkLevels : LinksOnly l (l.unlinkLevels x u) := by
  refine linksOnly_forRange (fun t i => ?_) 0 _
  unfold unlinkLevel storeNextAndSpan
  split
  · exact (linksOnly_storeNext _ _ _).trans (linksOnly_storeSpan _ _ _)
  · exact linksOnly_storeSpan _ _ _

/-! ### The successor's back pointer -/

section UnlinkPrev

theorem unlinkPrev_loadNext (m j : Nat) : (l.unlinkPrev x).loadNext m j = l.loadNext m j := by
  unfold unlinkPrev
  cases l.loadNext x 0 <;> simp

theorem unlinkPrev_loadSpan (m j : Nat) : (l.unlinkPrev x).loadSpan m j = l.loadSpan m j := by
  unfold unlinkPrev
  cases l.loadNext x 0 <;> simp

theorem unlinkPrev_node (m : Nat) :
    ((l.unlinkPrev x).node m).score = (l.node m).score ∧
      ((l.unlinkPrev x).node m).value = (l.node m).value ∧
      ((l.unlinkPrev x).node m).level = (l.node m).level := by
  unfold unlinkPrev
  cases l.loadNext x 0 <;> simp

theorem unlinkPrev_prev (m : Nat) :
    ((l.unlinkPrev x).node m).prev =
      if l.loadNext x 0 = some m then (l.node x).prev else (l.node m).prev := by
  unfold unlinkPrev
  cases l.loadNext x 0 <;> simp [eq_comm]

theorem unlinkPrev_tail :
    (l.unlinkPrev x).tail = if l.loadNext x 0 = none then (l.node x).prev else l.tail := by
  unfold unlinkPrev
  cases l.loadNext x 0 <;> simp

theorem unlinkPrev_scalars :
    (l.unlinkPrev x).fresh = l.fresh ∧ (l.unlinkPrev x).length = l.length ∧
      (l.unlinkPrev x).highestLevel = l.highestLevel := by
  unfold unlinkPrev
  cases l.loadNext x 0 <;> simp

end UnlinkPrev

/-! ### Lowering the top -/

/-- What `dropLevels` does: it keeps every node but the header's emptied top links, lowers
`highestLevel` only over levels whose header link went nowhere, and, given enough fuel,
stops at level 1 or at a level some node reaches. -/
theorem dropLevels_spec (fuel : Nat) (l : Float64List) :
    let d := dropLevels fuel l
    d.fresh = l.fresh ∧ d.tail = l.tail ∧ d.length = l.length ∧
      (∀ m, SameNode (d.node m) (l.node m)) ∧
      d.highestLevel ≤ l.highestLevel ∧ (1 ≤ l.highestLevel → 1 ≤ d.highestLevel) ∧
      (∀ m j, (m ≠ header ∨ j < d.highestLevel ∨ l.highestLevel ≤ j) →
        d.loadNext m j = l.loadNext m j ∧ d.loadSpan m j = l.loadSpan m j) ∧
      (∀ j, d.highestLevel ≤ j → j < l.highestLevel →
        l.loadNext header j = none ∧ d.loadNext header j = none ∧ d.loadSpan header j = 0) ∧
      (l.highestLevel ≤ fuel + 1 →
        d.highestLevel ≤ 1 ∨ d.loadNext header (d.highestLevel - 1) ≠ none) := by
  induction fuel generalizing l with
  | zero =>
    refine ⟨rfl,rfl,rfl,fun _ => SameNode.refl _,Nat.le_refl _,id,fun _ _ _ => ⟨rfl,rfl⟩,
      fun j h h' => absurd h' (by simp [dropLevels] at h ⊢; omega),fun h => .inl ?_⟩
    simp only [dropLevels]
    omega
  | succ f ih =>
    by_cases hc : l.highestLevel > 1 ∧ l.loadNext header (l.highestLevel - 1) = none
    · -- one level dropped, then the rest of the loop
      have hd : dropLevels (f + 1) l = dropLevels f
          ((l.storeNextAndSpan header (l.highestLevel - 1) none 0).setHighestLevel
            (l.highestLevel - 1)) := by
        rw [dropLevels,if_pos hc]
      rw [hd]
      set l' := (l.storeNextAndSpan header (l.highestLevel - 1) none 0).setHighestLevel
        (l.highestLevel - 1) with hl'
      obtain ⟨hf,ht,hlen,hn,hle,h1,hfr,hdr,hstop⟩ := ih l'
      have hH' : l'.highestLevel = l.highestLevel - 1 := rfl
      have hnext' : ∀ m j, l'.loadNext m j =
          if m = header ∧ j = l.highestLevel - 1 then none else l.loadNext m j := by
        intro m j
        simp [hl',storeNextAndSpan]
      have hspan' : ∀ m j, l'.loadSpan m j =
          if m = header ∧ j = l.highestLevel - 1 then 0 else l.loadSpan m j := by
        intro m j
        simp [hl',storeNextAndSpan]
      refine ⟨hf,ht,hlen,fun m => (hn m).trans ?_,by omega,fun _ => h1 (by omega),
        fun m j hj => ?_,fun j hj hj' => ?_,fun h => hstop (by omega)⟩
      · simp only [hl',storeNextAndSpan,setHighestLevel_node]
        exact (sameNode_storeSpan _ _).trans (sameNode_storeNext _ _)
      · have hne : ¬ (m = header ∧ j = l.highestLevel - 1) := by omega
        obtain ⟨h₁,h₂⟩ := hfr m j (by omega)
        rw [h₁,h₂,hnext',hspan']
        simp [hne]
      · by_cases hjt : j = l.highestLevel - 1
        · -- the level dropped here
          subst hjt
          obtain ⟨h₁,h₂⟩ := hfr header (l.highestLevel - 1) (.inr (.inr (by omega)))
          rw [h₁,h₂,hnext',hspan']
          simp [hc.2]
        · obtain ⟨h₀,h₁,h₂⟩ := hdr j hj (by omega)
          rw [hnext'] at h₀
          simp only [hjt,and_false,if_false] at h₀
          exact ⟨h₀,h₁,h₂⟩
    · have hd : dropLevels (f + 1) l = l := by rw [dropLevels,if_neg hc]
      rw [hd]
      refine ⟨rfl,rfl,rfl,fun _ => SameNode.refl _,Nat.le_refl _,id,fun _ _ _ => ⟨rfl,rfl⟩,
        fun j h h' => absurd h' (by omega),fun _ => ?_⟩
      by_cases h1 : l.highestLevel ≤ 1
      · exact .inl h1
      · exact .inr fun h => hc ⟨by omega,h⟩

/-! ### `deleteNode` -/

theorem Layout.unlinkPrev (hlay : l.Layout es) : (l.unlinkPrev x).Layout es :=
  hlay.congr (fun m _ => (unlinkPrev_node m).2.2)
    (fun m _ => by simp [live,lvl,(unlinkPrev_node m).2.2,unlinkPrev_scalars.2.2])
    (fun m _ i _ => ⟨unlinkPrev_loadNext m i,unlinkPrev_loadSpan m i⟩)

theorem Layout.below_of_none (hlay : l.Layout es) {j : Nat} (hj : j < l.highestLevel)
    (h : l.loadNext header j = none) : Below l.lvl j es := by
  have hj' := (hlay [] header es rfl j (by rw [live_header]; exact hj)).1
  rw [h] at hj'
  exact below_of_hop_none hj'.symm

theorem Layout.above_of_some (hlay : l.Layout es) {j n : Nat} (hj : j < l.highestLevel)
    (h : l.loadNext header j = some n) : n ∈ es ∧ j < l.lvl n := by
  have hj' := (hlay [] header es rfl j (by rw [live_header]; exact hj)).1
  rw [h] at hj'
  exact ⟨mem_of_hop hj'.symm,lt_of_hop hj'.symm⟩

/-- `deleteNode` at the `update` arrays of a search that stopped before `x` keeps the
invariant, with `x` gone from the list. -/
theorem Chain.deleteNode (hc : l.Chain es) {A B : List Nat} (hes : es = A ++ x :: B)
    (hu : ∀ i < l.highestLevel, LastAbove l.lvl i (header :: A) (u i) (r i)) :
    (l.deleteNode x u).Chain (A ++ B) := by
  set l₁ := l.unlinkLevels x u with hl₁
  set l₂ := l₁.unlinkPrev x with hl₂
  obtain ⟨hdf,hdt,hdl,hdn,hdle,hd1,hdfr,hddr,hdstop⟩ := dropLevels_spec l₂.highestLevel l₂
  set d := dropLevels l₂.highestLevel l₂ with hd
  have hF : l.deleteNode x u = d.setLength (d.length - 1) := rfl
  rw [hF]
  have h1lo : LinksOnly l l₁ := linksOnly_unlinkLevels
  obtain ⟨h2f,h2l,h2H⟩ := unlinkPrev_scalars (l := l₁) (x := x)
  have hH : l₂.highestLevel = l.highestLevel := h2H.trans h1lo.highestLevel
  have hnd : (header :: (A ++ x :: B)).Nodup := hes ▸ hc.nodup
  have hnd' : ((header :: A) ++ x :: B).Nodup := hnd
  obtain ⟨hxA,hxB,hAB⟩ := not_mem_of_nodup_split hnd'
  have hmem : ∀ b ∈ A ++ B, b ∈ es := fun b hb => by
    rw [hes]
    simp only [List.mem_append,List.mem_cons] at hb ⊢
    tauto
  have hnh : ∀ b ∈ A ++ B, b ≠ header := fun b hb => hc.ne_header (hmem b hb)
  have h1lay : l₁.Layout (A ++ B) := by
    unfold Layout
    rw [h1lo.lvl,h1lo.live]
    refine canonical_erase (hes ▸ hc.layout) hnd (fun b hb => hc.live_eq (hes ▸ hb))
      (fun b hb => by rw [live_header]; exact (hc.levels b (hes ▸ List.mem_append_left _ hb)).2)
      (by rw [live_header]; exact hu) (fun i hi h => ?_) (fun i hi h => ?_) (fun b i hb hbu => ?_)
    · rw [live_header] at hi
      rw [unlinkLevels_loadNext,unlinkLevels_loadSpan]
      simp [hi,h]
    · rw [live_header] at hi
      rw [unlinkLevels_loadNext,unlinkLevels_loadSpan]
      simp [hi,h]
    · rw [live_header] at hbu
      rw [unlinkLevels_loadNext,unlinkLevels_loadSpan]
      by_cases hi : i < l.highestLevel
      · simp [hbu hi]
      · simp [hi]
  have h2lay : l₂.Layout (A ++ B) := h1lay.unlinkPrev
  have hdlay : d.Layout (A ++ B) := by
    have hmono : Canonical l₂.lvl l₂.loadNext l₂.loadSpan d.live (header :: (A ++ B)) :=
      Canonical.mono h2lay fun b => by
        unfold live
        split
        · exact hdle
        · exact Nat.le_of_eq (hdn b).level
    refine hmono.congr (fun b _ => (hdn b).level) (fun _ _ => rfl) (fun b _ i hi => ?_)
    by_cases hb : b = header
    · subst hb
      rw [live_header] at hi
      exact hdfr header i (.inr (.inl hi))
    · exact hdfr b i (.inl hb)
  have h2lvl : l₂.lvl = l.lvl :=
    funext fun m => (unlinkPrev_node m).2.2.trans (h1lo.node m).level
  have hdlvl : d.lvl = l.lvl := funext fun m => (hdn m).level.trans (congrFun h2lvl m)
  have hlev : ∀ b ∈ A ++ B, l.lvl b ≤ d.highestLevel := by
    by_cases hlt : d.highestLevel < l₂.highestLevel
    · -- the first dropped level had no node above it
      have hb := h2lay.below_of_none hlt (hddr d.highestLevel (Nat.le_refl _) hlt).1
      rw [h2lvl] at hb
      exact hb
    · intro b hb
      rw [show d.highestLevel = l.highestLevel by omega]
      exact (hc.levels b (hmem b hb)).2
  have hux : ∀ i < l.highestLevel, u i ≠ x := fun i hi e => hxA (e ▸ (hu i hi).mem)
  have hxes : x ∈ es := by rw [hes]; simp
  have hnext : l.loadNext x 0 = B.head? :=
    hc.layout.next_zero (fun n hn => (hc.levels n hn).1)
      (show header :: es = (header :: A) ++ x :: B by rw [hes]; rfl)
      (by rw [hc.live_eq hxes]; exact (hc.levels x hxes).1)
  have h1next : l₁.loadNext x 0 = B.head? := by
    rw [unlinkLevels_loadNext,if_neg fun h => hux 0 h.1 h.2.1.symm,hnext]
  have hsub : List.Sublist (A ++ B) (A ++ x :: B) := List.Sublist.append_left (List.sublist_cons_self x B) A
  have hnode : ∀ m, ((d.setLength (d.length - 1)).node m).score = (l.node m).score ∧
      ((d.setLength (d.length - 1)).node m).value = (l.node m).value := fun m =>
    ⟨(hdn m).score.trans ((unlinkPrev_node m).1.trans (h1lo.node m).score),
      (hdn m).value.trans ((unlinkPrev_node m).2.1.trans (h1lo.node m).value)⟩
  refine ⟨(hes ▸ hc.nodup).sublist (List.Sublist.cons_cons header hsub),fun m hm => ?_,fun m hm => ?_,?_,
    ?_,hdlay,fun i hi => ?_,?_,fun m hm => ?_,?_,?_,?_⟩
  · -- allocated
    change m < d.fresh
    rw [hdf,h2f,h1lo.fresh]
    rcases List.mem_cons.mp hm with rfl | hm
    · exact hc.allocated header List.mem_cons_self
    · exact hc.allocated m (.tail _ (hmem m hm))
  · -- levels
    change 1 ≤ d.lvl m ∧ d.lvl m ≤ d.highestLevel
    rw [hdlvl]
    exact ⟨(hc.levels m (hmem m hm)).1,hlev m hm⟩
  · -- highest
    change 1 ≤ d.highestLevel ∧ d.highestLevel ≤ maxLevel
    exact ⟨hd1 (by rw [hH]; exact hc.highest.1),le_trans hdle (by rw [hH]; exact hc.highest.2)⟩
  · -- top: the loop stopped at level 1 or at a level some node reaches
    change A ++ B = [] ∧ d.highestLevel = 1 ∨ ∃ n ∈ A ++ B, d.lvl n = d.highestLevel
    have hd1' := hd1 (by rw [hH]; exact hc.highest.1)
    rw [hdlvl]
    rcases hdstop (Nat.le_succ _) with h | h
    · by_cases hnil : A ++ B = []
      · exact .inl ⟨hnil,by omega⟩
      · obtain ⟨b,hb⟩ := List.exists_mem_of_ne_nil _ hnil
        exact .inr ⟨b,hb,by have := (hc.levels b (hmem b hb)).1; have := hlev b hb; omega⟩
    · obtain ⟨n,hn⟩ := Option.ne_none_iff_exists'.mp h
      obtain ⟨hnm,hnl⟩ := hdlay.above_of_some (by omega) hn
      rw [hdlvl] at hnl
      exact .inr ⟨n,hnm,by have := hlev n hnm; omega⟩
  · -- above: a dropped level, or one above the old top
    change d.highestLevel ≤ i at hi
    change d.loadNext header i = none ∧ d.loadSpan header i = 0
    by_cases hi' : i < l₂.highestLevel
    · exact (hddr i hi hi').2
    · obtain ⟨h₁,h₂⟩ := hdfr header i (.inr (.inr (by omega)))
      rw [h₁,h₂,hl₂,unlinkPrev_loadNext,unlinkPrev_loadSpan,unlinkLevels_loadNext,
        unlinkLevels_loadSpan]
      have hno : ¬ i < l.highestLevel := by omega
      simp only [hno,false_and,if_false]
      exact hc.above i (by omega)
  · -- sorted
    refine ((hes ▸ hc.sorted).sublist hsub).imp ?_
    intro a b h
    simp only [ListNode.key,(hnode a).1,(hnode a).2,(hnode b).1,(hnode b).2]
    exact h
  · -- notNaN
    rw [(hnode m).1]
    exact hc.notNaN m (hmem m hm)
  · -- prev: the successor takes `x`'s back pointer
    change BackLinked (fun n => (d.node n).prev) none (A ++ B)
    have hprev : ∀ m, (d.node m).prev =
        if B.head? = some m then (l.node x).prev else (l.node m).prev := by
      intro m
      rw [(hdn m).prev,hl₂,unlinkPrev_prev,h1next,(h1lo.node x).prev,(h1lo.node m).prev]
    refine (hes ▸ hc.prev).erase (fun b hb => ?_) (fun b B' hB => ?_)
    · have hbB : B.head? ≠ some b := by
        cases B with
        | nil => simp
        | cons c B => exact fun e => hAB b (.tail _ hb) (by simp at e; simp [e])
      rw [hprev,if_neg hbB]
    · subst hB
      have hndB := (List.nodup_cons.mp (List.nodup_append.mp hnd').2.1).2
      refine ⟨by rw [hprev]; simp,fun c hc' => ?_⟩
      have hcb : c ≠ b := fun e => (List.nodup_cons.mp hndB).1 (e ▸ hc')
      rw [hprev]
      simp [Ne.symm hcb]
  · -- tail
    change d.tail = (A ++ B).getLast?
    rw [hdt,hl₂,unlinkPrev_tail,h1next,h1lo.tail,(h1lo.node x).prev,hc.tail,hes]
    cases B with
    | nil =>
      have := (hes ▸ hc.prev).prev_eq
      simp only [Option.or_none] at this
      simpa using this
    | cons b B => simp [List.getLast?_append]
  · -- length
    change d.length - 1 = ((A ++ B).length : Int)
    rw [hdl,h2l,h1lo.length,hc.length,hes]
    simp only [List.length_append,List.length_cons]
    omega

/-- What `deleteNode` leaves of the nodes: their levels and entries. -/
theorem deleteNode_frame :
    (l.deleteNode x u).lvl = l.lvl ∧ (l.deleteNode x u).highestLevel ≤ l.highestLevel ∧
      (l.deleteNode x u).fresh = l.fresh ∧
      ∀ m, ((l.deleteNode x u).node m).score = (l.node m).score ∧
        ((l.deleteNode x u).node m).value = (l.node m).value := by
  set l₁ := l.unlinkLevels x u with hl₁
  obtain ⟨hdf,-,-,hdn,hdle,-⟩ := dropLevels_spec (l₁.unlinkPrev x).highestLevel (l₁.unlinkPrev x)
  have hF : l.deleteNode x u =
      (dropLevels (l₁.unlinkPrev x).highestLevel (l₁.unlinkPrev x)).setLength
        ((dropLevels (l₁.unlinkPrev x).highestLevel (l₁.unlinkPrev x)).length - 1) := rfl
  have h1lo : LinksOnly l l₁ := linksOnly_unlinkLevels
  obtain ⟨h2f,-,h2H⟩ := unlinkPrev_scalars (l := l₁) (x := x)
  rw [hF]
  refine ⟨funext fun m => ?_,?_,?_,fun m => ⟨?_,?_⟩⟩
  · exact (hdn m).level.trans ((unlinkPrev_node m).2.2.trans (h1lo.node m).level)
  · exact le_trans hdle (by rw [h2H,h1lo.highestLevel])
  · simp only [setLength_fresh,hdf,h2f,h1lo.fresh]
  · exact (hdn m).score.trans ((unlinkPrev_node m).1.trans (h1lo.node m).score)
  · exact (hdn m).value.trans ((unlinkPrev_node m).2.1.trans (h1lo.node m).value)

/-- The search arrays of a deletion stay good for the next node of a run: the nodes before
the cut and their levels are as they were. -/
theorem deleteNode_lastAbove {A : List Nat} (hu : ∀ i < l.highestLevel, LastAbove l.lvl i (header :: A) (u i) (r i)) :
    ∀ i < (l.deleteNode x u).highestLevel,
      LastAbove (l.deleteNode x u).lvl i (header :: A) (u i) (r i) := by
  obtain ⟨hlvl,hle,-⟩ := deleteNode_frame (l := l) (x := x) (u := u)
  intro i hi
  rw [hlvl]
  exact hu i (by omega)

theorem Chain.not_lt_of_split (hc : l.Chain es) {A B : List Nat} (hes : es = A ++ x :: B) :
    ∀ b ∈ x :: B, ¬ (l.node b).key < (l.node x).key := by
  have hs := hc.sorted
  rw [hes,List.pairwise_append,List.pairwise_cons] at hs
  intro b hb
  rcases List.mem_cons.mp hb with rfl | hb
  · exact lt_irrefl _
  · exact not_lt_of_gt (hs.2.1.1 b hb)

/-- `Delete` finds the node holding `(score, value)` and deletes it at its search arrays. -/
theorem Chain.delete {score : Binary64} {value : String} (hc : l.Chain es) {A B : List Nat}
    (hes : es = A ++ x :: B) (hA : ∀ a ∈ A, (l.node a).key < target score value)
    (hx : (l.node x).key = target score value) (hs : score.isNaN = false) :
    l.Delete score value = (l.deleteNode x (l.searchBefore score value).1,some x) ∧
      (l.Delete score value).1.Chain (A ++ B) := by
  have hB : ∀ b ∈ x :: B, ¬ (l.node b).key < target score value :=
    hx ▸ hc.not_lt_of_split hes
  have hu := hc.searchBefore_at hs hes hA hB
  have hnext := hc.search_next hes (hu 0 (by have := hc.highest.1; omega))
  have hxes : x ∈ es := by rw [hes]; simp
  have heq : (l.node x).equal score value = true :=
    (ListNode.equal_iff (hc.notNaN x hxes) hs).mpr hx
  have hD : l.Delete score value = (l.deleteNode x (l.searchBefore score value).1,some x) := by
    unfold Delete
    rw [show (l.search fun _ n => (l.node n).lessThan score value) = l.searchBefore score value
      from rfl]
    simp only [hnext,List.head?_cons,heq,if_true]
  exact ⟨hD,by rw [hD]; exact hc.deleteNode hes hu⟩

/-! ### `UpdateScore` -/

section UpdateScore

variable {oldScore newScore : Binary64} {value : String}

theorem setScore_node (m : Nat) :
    (l.modify x fun n => { n with score := newScore }).node m =
      if m = x then { l.node x with score := newScore } else l.node m :=
  modify_node _ _

/-- Giving `x` a score strictly between its neighbours' keeps the invariant. -/
theorem Chain.setScore (hc : l.Chain es) {A B : List Nat} (hes : es = A ++ x :: B)
    (hn : newScore.isNaN = false)
    (hlo : ∀ a ∈ A.getLast?, (l.node a).score.lt newScore = true)
    (hhi : ∀ b ∈ B.head?, newScore.lt (l.node b).score = true) :
    (l.modify x fun n => { n with score := newScore }).Chain es := by
  set l' := l.modify x fun n => { n with score := newScore } with hl'
  have hsame : ∀ m, (l'.node m).level = (l.node m).level ∧ (l'.node m).prev = (l.node m).prev ∧
      (l'.node m).next = (l.node m).next ∧ (l'.node m).span = (l.node m).span := by
    intro m
    rw [hl',setScore_node]
    by_cases hm : m = x
    · subst hm
      simp
    · simp [hm]
  have hlvl : l'.lvl = l.lvl := funext fun m => (hsame m).1
  have hlive : l'.live = l.live := by
    funext m
    simp only [live,hlvl]
    rfl
  have hnext : l'.loadNext = l.loadNext := funext fun m => funext fun j => by
    simp only [loadNext,(hsame m).2.2.1]
  have hspan : l'.loadSpan = l.loadSpan := funext fun m => funext fun j => by
    simp only [loadSpan,(hsame m).2.2.2]
  have hxes : x ∈ es := by rw [hes]; simp
  have hvalue : ∀ m, (l'.node m).value = (l.node m).value := fun m => by
    rw [hl',setScore_node]
    by_cases hm : m = x <;> simp [hm]
  have hscore : ∀ m, m ≠ x → (l'.node m).score = (l.node m).score := fun m hm => by
    rw [hl',setScore_node,if_neg hm]
  have hnd : (header :: (A ++ x :: B)).Nodup := hes ▸ hc.nodup
  have hnd' : ((header :: A) ++ x :: B).Nodup := hnd
  obtain ⟨hxA,hxB,-⟩ := not_mem_of_nodup_split hnd'
  have hxs : (l'.node x).score = newScore := by rw [hl',setScore_node,if_pos rfl]
  refine ⟨hc.nodup,hc.allocated,by rw [hlvl]; exact hc.levels,hc.highest,by rw [hlvl]; exact hc.top,
    by unfold Layout; rw [hlvl,hnext,hspan,hlive]; exact hc.layout,
    by rw [hnext,hspan]; exact hc.above,?_,fun m hm => ?_,by simp only [(hsame _).2.1]; exact hc.prev,
    hc.tail,hc.length⟩
  · -- sorted: the new key sits between the neighbours' keys
    rw [hes]
    refine pairwise_rekey (hes ▸ hc.sorted) (fun c hc' => ?_) (fun a ha => ?_) (fun b hb => ?_)
    · have hcx : c ≠ x := fun e => by
        subst e
        simp only [List.mem_append] at hc'
        rcases hc' with h | h
        · exact hxA (.tail _ h)
        · exact hxB h
      simp only [ListNode.key,hscore c hcx,hvalue]
    · have ha' : a ∈ es := by rw [hes]; exact List.mem_append_left _ (List.mem_of_getLast? ha)
      rw [ListNode.key,ListNode.key,hxs,hvalue,Prod.Lex.toLex_lt_toLex]
      exact .inl ((Binary64.lt_iff (hc.notNaN a ha') hn).mp (hlo a ha))
    · have hb' : b ∈ es := by rw [hes]; simp [List.mem_of_mem_head? hb]
      rw [ListNode.key,ListNode.key,hxs,hvalue,Prod.Lex.toLex_lt_toLex]
      exact .inl ((Binary64.lt_iff hn (hc.notNaN b hb')).mp (hhi b hb))
  · by_cases hmx : m = x
    · rw [hmx,hxs]
      exact hn
    · rw [hscore m hmx]
      exact hc.notNaN m hm

/-- `UpdateScore` of the node holding `(oldScore, value)` keeps the invariant, and the set
then holds the other members and `value` at `newScore`. -/
theorem Chain.updateScore {level : Nat} (hc : l.Chain es) {A B : List Nat} (hes : es = A ++ x :: B)
    (hA : ∀ a ∈ A, (l.node a).key < target oldScore value)
    (hx : (l.node x).key = target oldScore value) (hs : oldScore.isNaN = false)
    (hn : newScore.isNaN = false) (hv : ∀ n ∈ A ++ B, (l.node n).value ≠ value)
    (h1 : 1 ≤ level) (hmax : level ≤ maxLevel) :
    ∃ es', (l.UpdateScore oldScore value newScore level).1.Chain es' ∧
      ((l.UpdateScore oldScore value newScore level).1.members es').Perm
        (l.members (A ++ B) ++ [⟨value,newScore⟩]) := by
  have hB := hx ▸ hc.not_lt_of_split hes
  have hu := hc.searchBefore_at hs hes hA hB
  have hnext := hc.search_next hes (hu 0 (by have := hc.highest.1; omega))
  have hxv : (l.node x).value = value := congrArg (fun k => (ofLex k).2) hx
  have hxes : x ∈ es := by rw [hes]; simp
  have hnd' : ((header :: A) ++ x :: B).Nodup := by
    have h : (header :: es).Nodup := hc.nodup
    rw [hes] at h
    exact h
  obtain ⟨hxA,hxB,-⟩ := not_mem_of_nodup_split hnd'
  have hprev : (l.node x).prev = A.getLast? := by
    have := (hes ▸ hc.prev).prev_eq
    simpa using this
  have hnext0 : (l.node x).next 0 = B.head? :=
    hc.layout.next_zero (fun n hn => (hc.levels n hn).1)
      (show header :: es = (header :: A) ++ x :: B by rw [hes]; rfl)
      (by rw [hc.live_eq hxes]; exact (hc.levels x hxes).1)
  have hmembers : ∀ (l' : Float64List) (A' B' : List Nat) (y : Nat), y ∉ A' ++ B' →
      (∀ m, m ≠ y → (l'.node m).score = (l.node m).score ∧ (l'.node m).value = (l.node m).value) →
      (l'.node y).value = value → (l'.node y).score = newScore →
      (l'.members (A' ++ y :: B')).Perm (l.members (A' ++ B') ++ [⟨value,newScore⟩]) := by
    intro l' A' B' y hy hold hyv hys
    have hA' : l'.members A' = l.members A' :=
      members_congr fun m hm => hold m fun e => hy (e ▸ List.mem_append_left _ hm)
    have hB' : l'.members B' = l.members B' :=
      members_congr fun m hm => hold m fun e => hy (e ▸ List.mem_append_right _ hm)
    have hsplit : l'.members (A' ++ y :: B') = l'.members A' ++ ⟨value,newScore⟩ :: l'.members B' := by
      simp [members,hyv,hys]
    rw [hsplit,hA',hB']
    have hAB : l.members (A' ++ B') = l.members A' ++ l.members B' := by simp [members]
    rw [hAB]
    exact List.perm_middle.trans (List.perm_append_singleton _ _).symm
  unfold UpdateScore
  rw [show (l.search fun _ n => (l.node n).lessThan oldScore value) = l.searchBefore oldScore value
    from rfl]
  simp only [hnext,List.head?_cons,hprev,hnext0]
  split_ifs with hfast
  · -- the fast path: the node keeps its place and takes the new score
    obtain ⟨hp,hq⟩ := Bool.and_eq_true_iff.mp hfast
    refine ⟨es,hc.setScore hes hn (fun a ha => ?_) (fun b hb => ?_),?_⟩
    · rw [Option.mem_def] at ha
      rw [ha] at hp
      exact hp
    · rw [Option.mem_def] at hb
      rw [hb] at hq
      exact hq
    · rw [hes]
      refine hmembers _ A B x (fun h => ?_) (fun m hm => ?_) ?_ ?_
      · rcases List.mem_append.mp h with h | h
        · exact hxA (.tail _ h)
        · exact hxB h
      · rw [setScore_node,if_neg hm]
        exact ⟨rfl,rfl⟩
      · rw [setScore_node,if_pos rfl]
        exact hxv
      · rw [setScore_node,if_pos rfl]
  · -- the slow path: delete, then insert the value again
    have hc₁ := hc.deleteNode hes hu
    obtain ⟨-,-,hf₁,he₁⟩ := deleteNode_frame (l := l) (x := x) (u := (l.searchBefore oldScore value).1)
    have hv₁ : ∀ n ∈ A ++ B, ((l.deleteNode x (l.searchBefore oldScore value).1).node n).value ≠
        (l.node x).value := fun n hn => by rw [(he₁ n).2,hxv]; exact hv n hn
    obtain ⟨A',B',hAB,-,-,hc₂⟩ := hc₁.insert hn hv₁ h1 hmax
    refine ⟨_,hc₂,?_⟩
    have hfresh : l.fresh ∉ A' ++ B' := fun h => by
      rw [← hAB] at h
      have hm : l.fresh ∈ es := by
        rw [hes]
        simp only [List.mem_append,List.mem_cons] at h ⊢
        tauto
      exact Nat.lt_irrefl _ (hc.allocated _ (.tail _ hm))
    rw [hAB]
    refine hmembers _ A' B' _ (by rw [hf₁]; exact hfresh) (fun m hm => ?_) ?_ ?_
    · rw [(Insert_entry m).1,(Insert_entry m).2,if_neg hm,if_neg hm]
      exact he₁ m
    · rw [(Insert_entry _).2,if_pos rfl,hxv]
    · rw [(Insert_entry _).1,if_pos rfl]

end UpdateScore

end Float64List

end Gkit.Zset
