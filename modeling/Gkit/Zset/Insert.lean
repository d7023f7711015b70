import Gkit.Zset.Layout

/-!
`Insert` keeps the representation invariant. Its loops are described one level at a
time and then as a whole: `createLevels` and `grow` give the header the new levels,
`linkLevels` and `passLevels` are exactly the pointer updates `SkipList.canonical_insert`
takes, and `linkPrev` fixes the back pointers and the tail.
-/

namespace Gkit.Zset

namespace Float64List

open SkipList Runs

variable {l : Float64List} {x level : Nat} {u : Nat → Nat} {r : Nat → Int}

/-! ### The splice loops -/

theorem linkLevel_loadNext {i : Nat} (hux : u i ≠ x) (m j : Nat) :
    (l.linkLevel x u r i).loadNext m j =
      if m = x ∧ j = i then l.loadNext (u i) i
      else if m = u i ∧ j = i then some x else l.loadNext m j := by
  unfold linkLevel
  simp only [loadNext_storeSpan,loadNext_storeNext]
  by_cases hm : m = u i
  · subst hm
    simp [hux]
  · by_cases hmx : m = x
    · subst hmx
      simp [Ne.symm hux]
    · simp [hm,hmx]

theorem linkLevel_loadSpan {i : Nat} (hux : u i ≠ x) (m j : Nat) :
    (l.linkLevel x u r i).loadSpan m j =
      if m = x ∧ j = i then l.loadSpan (u i) i - (r 0 - r i)
      else if m = u i ∧ j = i then r 0 - r i + 1 else l.loadSpan m j := by
  unfold linkLevel
  simp only [loadSpan_storeSpan,loadSpan_storeNext]
  by_cases hm : m = u i
  · subst hm
    simp [hux]
  · by_cases hmx : m = x
    · subst hmx
      simp [Ne.symm hux]
    · simp [hm,hmx]

theorem linkLevels_succ (k : Nat) :
    l.linkLevels x u r (k + 1) = (l.linkLevels x u r k).linkLevel x u r k := by
  simp only [linkLevels,forRange_succ,Nat.zero_add]

/-- After the splice, below `level`, `x` has the old links of the `update` nodes and they
link to `x`. -/
theorem linkLevels_loadNext (level : Nat) (hux : ∀ i < level, u i ≠ x) (m j : Nat) :
    (l.linkLevels x u r level).loadNext m j =
      if j < level ∧ m = x then l.loadNext (u j) j
      else if j < level ∧ m = u j then some x else l.loadNext m j := by
  induction level generalizing m j with
  | zero => simp [linkLevels]
  | succ k ih =>
    rw [linkLevels_succ,linkLevel_loadNext (hux k (by omega)),ih (fun i hi => hux i (by omega)),
      ih (fun i hi => hux i (by omega))]
    by_cases hjk : j = k
    · subst hjk
      simp [hux j (by omega)]
    · have : j < k + 1 ↔ j < k := by omega
      simp [hjk,this]

theorem linkLevels_loadSpan (level : Nat) (hux : ∀ i < level, u i ≠ x) (m j : Nat) :
    (l.linkLevels x u r level).loadSpan m j =
      if j < level ∧ m = x then l.loadSpan (u j) j - (r 0 - r j)
      else if j < level ∧ m = u j then r 0 - r j + 1 else l.loadSpan m j := by
  induction level generalizing m j with
  | zero => simp [linkLevels]
  | succ k ih =>
    rw [linkLevels_succ,linkLevel_loadSpan (hux k (by omega)),ih (fun i hi => hux i (by omega)),
      ih (fun i hi => hux i (by omega))]
    by_cases hjk : j = k
    · subst hjk
      simp [hux j (by omega)]
    · have : j < k + 1 ↔ j < k := by omega
      simp [hjk,this]

theorem linksOnly_linkLevels : LinksOnly l (l.linkLevels x u r level) :=
  linksOnly_forRange (fun _ _ => ((linksOnly_storeNext _ _ _).trans (linksOnly_storeNext _ _ _)).trans
    ((linksOnly_storeSpan _ _ _).trans (linksOnly_storeSpan _ _ _))) 0 level

theorem passLevel_loadNext {i : Nat} (m j : Nat) : (l.passLevel u i).loadNext m j = l.loadNext m j :=
  loadNext_storeSpan _ _

theorem passLevel_loadSpan {i : Nat} (m j : Nat) :
    (l.passLevel u i).loadSpan m j =
      if m = u i ∧ j = i then l.loadSpan (u i) i + 1 else l.loadSpan m j :=
  loadSpan_storeSpan _ _

theorem passLevels_gen (start n m j : Nat) :
    (forRange (fun l i => l.passLevel u i) start n l).loadNext m j = l.loadNext m j ∧
    (forRange (fun l i => l.passLevel u i) start n l).loadSpan m j =
      if start ≤ j ∧ j < start + n ∧ m = u j then l.loadSpan m j + 1 else l.loadSpan m j := by
  induction n generalizing m j with
  | zero => simp; omega
  | succ k ih =>
    rw [forRange_succ]
    refine ⟨by rw [passLevel_loadNext,(ih _ _).1],?_⟩
    rw [passLevel_loadSpan,(ih _ _).2,(ih _ _).2]
    by_cases hj : j = start + k
    · subst hj
      by_cases hm : m = u (start + k) <;> simp [hm]
    · have : j < start + (k + 1) ↔ j < start + k := by omega
      simp [hj,this]

theorem passLevels_loadSpan (m j : Nat) :
    (l.passLevels u level).loadSpan m j =
      if level ≤ j ∧ j < l.highestLevel ∧ m = u j then l.loadSpan m j + 1 else l.loadSpan m j := by
  rw [passLevels,(passLevels_gen _ _ _ _).2]
  have : (level ≤ j ∧ j < level + (l.highestLevel - level)) ↔ (level ≤ j ∧ j < l.highestLevel) := by
    omega
  simp only [← and_assoc,this]

theorem passLevels_loadNext (m j : Nat) : (l.passLevels u level).loadNext m j = l.loadNext m j :=
  (passLevels_gen _ _ _ _).1

theorem linksOnly_passLevels : LinksOnly l (l.passLevels u level) :=
  linksOnly_forRange (fun _ _ => linksOnly_storeSpan _ _ _) level _

/-! ### New levels -/

/-- What `createLevels` does from `highestLevel` on: the header's links there span the
whole list, and the search arrays point at the header with rank 0. -/
theorem createLevels_gen (n : Nat) :
    let c := forRange createLevel l.highestLevel n (l,u,r)
    LinksOnly l c.1 ∧
      (∀ m j, c.1.loadNext m j = l.loadNext m j) ∧
      (∀ m j, c.1.loadSpan m j =
        if m = header ∧ l.highestLevel ≤ j ∧ j < l.highestLevel + n then l.length
        else l.loadSpan m j) ∧
      (∀ j, c.2.1 j = if l.highestLevel ≤ j ∧ j < l.highestLevel + n then header else u j) ∧
      (∀ j, c.2.2 j = if l.highestLevel ≤ j ∧ j < l.highestLevel + n then 0 else r j) := by
  induction n with
  | zero =>
    refine ⟨LinksOnly.refl l,fun _ _ => rfl,fun m j => ?_,fun j => ?_,fun j => ?_⟩ <;> simp
  | succ k ih =>
    obtain ⟨hlo,hn,hsp,hu,hr⟩ := ih
    rw [forRange_succ]
    refine ⟨hlo.trans (linksOnly_storeSpan _ _ _),fun m j => ?_,fun m j => ?_,fun j => ?_,
      fun j => ?_⟩
    · simp only [createLevel,loadNext_storeSpan,hn]
    · simp only [createLevel,loadSpan_storeSpan,hsp,hlo.length]
      by_cases hj : j = l.highestLevel + k
      · subst hj
        by_cases hm : m = header <;> simp [hm]
      · have : j < l.highestLevel + (k + 1) ↔ j < l.highestLevel + k := by omega
        simp [hj,this]
    · simp only [createLevel,Function.update_apply,hu]
      by_cases hj : j = l.highestLevel + k
      · simp [hj]
      · have : j < l.highestLevel + (k + 1) ↔ j < l.highestLevel + k := by omega
        simp [hj,this]
    · simp only [createLevel,Function.update_apply,hr]
      by_cases hj : j = l.highestLevel + k
      · simp [hj]
      · have : j < l.highestLevel + (k + 1) ↔ j < l.highestLevel + k := by omega
        simp [hj,this]

theorem grow_spec (u : Nat → Nat) (r : Nat → Int) (level : Nat) :
    let g := l.grow u r level
    g.1.fresh = l.fresh ∧ g.1.tail = l.tail ∧ g.1.length = l.length ∧
      (∀ m, SameNode (g.1.node m) (l.node m)) ∧ g.1.highestLevel = max l.highestLevel level ∧
      (∀ m j, g.1.loadNext m j = l.loadNext m j) ∧
      (∀ m j, g.1.loadSpan m j =
        if m = header ∧ l.highestLevel ≤ j ∧ j < level then l.length else l.loadSpan m j) ∧
      (∀ j, g.2.1 j = if l.highestLevel ≤ j ∧ j < level then header else u j) ∧
      (∀ j, g.2.2 j = if l.highestLevel ≤ j ∧ j < level then 0 else r j) := by
  by_cases hgt : level > l.highestLevel
  · obtain ⟨hlo,hn,hsp,hu,hr⟩ := createLevels_gen (l := l) (u := u) (r := r) (level - l.highestLevel)
    have hlen : l.highestLevel + (level - l.highestLevel) = level := by omega
    rw [hlen] at hsp hu hr
    simp only [grow,hgt,if_true,setHighestLevel_highestLevel]
    exact ⟨hlo.fresh,hlo.tail,hlo.length,hlo.node,by omega,hn,hsp,hu,hr⟩
  · rw [grow,if_neg hgt]
    have hno : ∀ j, ¬ (l.highestLevel ≤ j ∧ j < level) := fun j h => hgt (by omega)
    refine ⟨rfl,rfl,rfl,fun _ => SameNode.refl _,by dsimp only; omega,fun _ _ => rfl,fun m j => ?_,
      fun j => by simp [hno j],fun j => by simp [hno j]⟩
    have := hno j
    simp only [this,and_false,if_false]

variable {es : List Nat}

theorem Chain.grow_layout (hc : l.Chain es) (u : Nat → Nat) (r : Nat → Int) (level : Nat) :
    (l.grow u r level).1.Layout es := by
  obtain ⟨_,_,_,hnode,hH,hn,hsp,_,_⟩ := grow_spec (l := l) u r level
  have hlvl : (l.grow u r level).1.lvl = l.lvl := funext fun m => (hnode m).level
  intro pre a post hs i hi
  rw [hn,hsp,hlvl]
  rcases split_header hs with ⟨rfl,rfl,rfl⟩ | ha
  · rw [live_header,hH] at hi
    by_cases hih : i < l.highestLevel
    · have hno : ¬ (l.highestLevel ≤ i ∧ i < level) := by omega
      simp only [hno,and_false,if_false]
      exact hc.layout [] header _ rfl i (by rw [live_header]; exact hih)
    · -- a new level: no node rises above it, and the header's link there spans the list
      have hyes : l.highestLevel ≤ i ∧ i < level := by omega
      rw [hop_of_below fun b hb => Nat.le_trans (hc.levels b hb).2 (by omega),(hc.above i (by omega)).1,
        hc.length]
      simp [hyes]
  · have hne := hc.ne_header ha
    have hlive : (l.grow u r level).1.live a = l.live a := by simp [live,hne,hlvl]
    rw [hlive] at hi
    simp only [hne,false_and,if_false]
    exact hc.layout pre a post hs i hi

theorem Chain.grow_above (hc : l.Chain es) (u : Nat → Nat) (r : Nat → Int) (level : Nat) (i : Nat)
    (hi : (l.grow u r level).1.highestLevel ≤ i) :
    (l.grow u r level).1.loadNext header i = none ∧ (l.grow u r level).1.loadSpan header i = 0 := by
  obtain ⟨_,_,_,_,hH,hn,hsp,_,_⟩ := grow_spec (l := l) u r level
  rw [hH] at hi
  have hno : ¬ (l.highestLevel ≤ i ∧ i < level) := by omega
  rw [hn,hsp]
  simp only [hno,and_false,if_false]
  exact hc.above i (by omega)

/-- On the new levels the search arrays stop at the header, which nothing follows there. -/
theorem Chain.grow_lastAbove (hc : l.Chain es) {A B : List Nat} (hes : es = A ++ B)
    (hu : ∀ i < l.highestLevel, LastAbove l.lvl i (header :: A) (u i) (r i)) (level : Nat) :
    ∀ i < (l.grow u r level).1.highestLevel,
      LastAbove l.lvl i (header :: A) ((l.grow u r level).2.1 i) ((l.grow u r level).2.2 i) := by
  obtain ⟨_,_,_,_,hH,_,_,hgu,hgr⟩ := grow_spec (l := l) u r level
  intro i hi
  rw [hgu,hgr]
  by_cases hih : i < l.highestLevel
  · have hno : ¬ (l.highestLevel ≤ i ∧ i < level) := by omega
    simp only [hno,if_false]
    exact hu i hih
  · have hyes : l.highestLevel ≤ i ∧ i < level := by omega
    simp only [hyes,and_self,if_true]
    refine ⟨[],A,rfl,fun b hb => ?_,.inl rfl,rfl⟩
    exact Nat.le_trans (hc.levels b (hes ▸ List.mem_append_left _ hb)).2 (by omega)

theorem alloc_node (n : ListNode) (m : Nat) :
    (l.alloc n).1.node m = if m = l.fresh then n else l.node m := by
  simp [alloc,node,Function.update_apply]

@[simp] theorem alloc_snd (n : ListNode) : (l.alloc n).2 = l.fresh := rfl
@[simp] theorem alloc_fresh (n : ListNode) : (l.alloc n).1.fresh = l.fresh + 1 := rfl
@[simp] theorem alloc_tail (n : ListNode) : (l.alloc n).1.tail = l.tail := rfl
@[simp] theorem alloc_length (n : ListNode) : (l.alloc n).1.length = l.length := rfl
@[simp] theorem alloc_highestLevel (n : ListNode) :
    (l.alloc n).1.highestLevel = l.highestLevel := rfl

theorem Layout.alloc {es : List Nat} (hlay : l.Layout es) (hf : ∀ m ∈ header :: es, m < l.fresh)
    (n : ListNode) : (l.alloc n).1.Layout es := by
  have hne : ∀ m ∈ header :: es, m ≠ l.fresh := fun m hm => Nat.ne_of_lt (hf m hm)
  refine hlay.congr (fun b hb => ?_) (fun b hb => ?_) (fun b hb i _ => ?_)
  · simp [lvl,alloc_node,hne b hb]
  · simp [live,lvl,alloc_node,hne b hb]
  · simp [loadNext,loadSpan,alloc_node,hne b hb]

/-! ### The splice -/

/-- What the two splice loops leave at each link. -/
theorem splice_loadNext (hux : ∀ i < level, u i ≠ x) (m j : Nat) :
    ((l.linkLevels x u r level).passLevels u level).loadNext m j =
      if j < level ∧ m = x then l.loadNext (u j) j
      else if j < level ∧ m = u j then some x else l.loadNext m j := by
  rw [passLevels_loadNext,linkLevels_loadNext level hux]

theorem splice_loadSpan (hux : ∀ i < level, u i ≠ x) (m j : Nat) :
    ((l.linkLevels x u r level).passLevels u level).loadSpan m j =
      if level ≤ j ∧ j < l.highestLevel ∧ m = u j then l.loadSpan m j + 1
      else if j < level ∧ m = x then l.loadSpan (u j) j - (r 0 - r j)
      else if j < level ∧ m = u j then r 0 - r j + 1 else l.loadSpan m j := by
  rw [passLevels_loadSpan,linksOnly_linkLevels.highestLevel,linkLevels_loadSpan level hux]
  by_cases h : level ≤ j ∧ j < l.highestLevel ∧ m = u j
  · have : ¬ j < level := by omega
    simp [h,this]
  · simp only [h,if_false]

/-- Splicing `x` in after the `update` nodes of a search that stopped before `B`: below
`x`'s level those nodes link to it, above they pass over it. -/
theorem Layout.splice {A B : List Nat} (hlay : l.Layout (A ++ B))
    (hnd : (header :: (A ++ x :: B)).Nodup) (hA : ∀ b ∈ A, l.lvl b ≤ l.highestLevel)
    (hx : l.lvl x = level) (hlevel : level ≤ l.highestLevel)
    (hu : ∀ i < l.highestLevel, LastAbove l.lvl i (header :: A) (u i) (r i)) (hr0 : r 0 = A.length) :
    ((l.linkLevels x u r level).passLevels u level).Layout (A ++ x :: B) := by
  have hlo : LinksOnly l ((l.linkLevels x u r level).passLevels u level) :=
    linksOnly_linkLevels.trans linksOnly_passLevels
  have hh : header ∉ A ++ x :: B := (List.nodup_cons.mp hnd).1
  have hnd' : ((header :: A) ++ x :: B).Nodup := hnd
  obtain ⟨hxA,-,-⟩ := not_mem_of_nodup_split hnd'
  have hux : ∀ i < level, u i ≠ x := fun i hi e => hxA (e ▸ (hu i (by omega)).mem)
  have hnh : ∀ b ∈ A ++ B, b ≠ header := fun b hb e => hh (by subst e; simp at hb ⊢; tauto)
  have hxh : x ≠ header := fun e => hh (by simp [e])
  unfold Layout
  rw [hlo.lvl,hlo.live]
  refine canonical_insert hlay hnd (fun b hb => by simp [live,hnh b hb])
    (fun b hb => by rw [live_header]; exact hA b hb) (by rw [live_header,hx]; exact hlevel)
    (by simp [live,hxh]) (fun _ _ => rfl) (by rw [live_header]; exact hu) (fun i hi => ?_)
    (fun i hi => ?_) (fun i hi hi' => ?_) (fun b i hb hbu => ?_)
  · -- the new node takes over the old links of the `update` nodes
    rw [hx] at hi
    rw [splice_loadNext hux,splice_loadSpan hux,hr0]
    simp [hi,show ¬ level ≤ i by omega]
  · rw [hx] at hi
    rw [splice_loadNext hux,splice_loadSpan hux,hr0]
    simp [hi,hux i hi,show ¬ level ≤ i by omega]
  · rw [hx] at hi
    rw [live_header] at hi'
    rw [splice_loadNext hux,splice_loadSpan hux]
    simp [hi,hi',show ¬ i < level by omega]
  · rw [live_header] at hbu
    rw [splice_loadNext hux,splice_loadSpan hux]
    by_cases hi : i < l.highestLevel
    · simp [hb,hbu hi]
    · simp [hb,hi,show ¬ i < level by omega]

/-! ### Back pointers and the tail -/

section LinkPrev

variable {b : Nat}

theorem linkPrev_first_loadNext (m j : Nat) :
    (if b ≠ header then l.setPrev x (some b) else l).loadNext m j = l.loadNext m j := by
  split <;> simp

/-- `linkPrev` with the test on `x`'s successor read from the list it started on. -/
theorem linkPrev_eq : l.linkPrev x b =
    match l.loadNext x 0 with
    | some n => (if b ≠ header then l.setPrev x (some b) else l).setPrev n (some x)
    | none => (if b ≠ header then l.setPrev x (some b) else l).setTail (some x) := by
  cases h : l.loadNext x 0 <;> simp only [linkPrev,linkPrev_first_loadNext,h]

theorem linkPrev_loadNext (m j : Nat) : (l.linkPrev x b).loadNext m j = l.loadNext m j := by
  rw [linkPrev_eq]
  cases l.loadNext x 0 with
  | some n => simp only [loadNext_setPrev,linkPrev_first_loadNext]
  | none => simp only [loadNext_setTail,linkPrev_first_loadNext]

theorem linkPrev_loadSpan (m j : Nat) : (l.linkPrev x b).loadSpan m j = l.loadSpan m j := by
  rw [linkPrev_eq]
  by_cases hb : b = header <;> cases l.loadNext x 0 <;> simp [hb]

theorem linkPrev_score (m : Nat) : ((l.linkPrev x b).node m).score = (l.node m).score := by
  rw [linkPrev_eq]
  by_cases hb : b = header <;> cases l.loadNext x 0 <;> simp [hb]

theorem linkPrev_value (m : Nat) : ((l.linkPrev x b).node m).value = (l.node m).value := by
  rw [linkPrev_eq]
  by_cases hb : b = header <;> cases l.loadNext x 0 <;> simp [hb]

theorem linkPrev_level (m : Nat) : ((l.linkPrev x b).node m).level = (l.node m).level := by
  rw [linkPrev_eq]
  by_cases hb : b = header <;> cases l.loadNext x 0 <;> simp [hb]

/-- `x` points back at `b` unless `b` is the header, and `x`'s successor points back at `x`. -/
theorem linkPrev_prev (m : Nat) :
    ((l.linkPrev x b).node m).prev =
      if l.loadNext x 0 = some m then some x
      else if m = x ∧ b ≠ header then some b else (l.node m).prev := by
  rw [linkPrev_eq]
  by_cases hb : b = header <;> cases l.loadNext x 0 <;> simp [hb,eq_comm]

theorem linkPrev_tail :
    (l.linkPrev x b).tail = if l.loadNext x 0 = none then some x else l.tail := by
  rw [linkPrev_eq]
  by_cases hb : b = header <;> cases l.loadNext x 0 <;> simp [hb]

@[simp] theorem linkPrev_fresh : (l.linkPrev x b).fresh = l.fresh := by
  rw [linkPrev_eq]
  by_cases hb : b = header <;> cases l.loadNext x 0 <;> simp [hb]

@[simp] theorem linkPrev_length : (l.linkPrev x b).length = l.length := by
  rw [linkPrev_eq]
  by_cases hb : b = header <;> cases l.loadNext x 0 <;> simp [hb]

@[simp] theorem linkPrev_highestLevel : (l.linkPrev x b).highestLevel = l.highestLevel := by
  rw [linkPrev_eq]
  by_cases hb : b = header <;> cases l.loadNext x 0 <;> simp [hb]

theorem Layout.linkPrev {es : List Nat} (hlay : l.Layout es) : (l.linkPrev x b).Layout es :=
  hlay.congr (fun m _ => linkPrev_level m) (fun m _ => by simp [live,lvl,linkPrev_level])
    (fun m _ i _ => ⟨linkPrev_loadNext m i,linkPrev_loadSpan m i⟩)

/-- `linkPrev` sets the back pointers around a node just linked in at level 0, after the
last node `b` of `header :: A`. -/
theorem linkPrev_backLinked {A B : List Nat}
    (h : BackLinked (fun n => (l.node n).prev) none (A ++ B))
    (hnd : (header :: (A ++ x :: B)).Nodup) (hnext : l.loadNext x 0 = B.head?)
    (hb : (header :: A).getLast? = some b) (hx : (l.node x).prev = none) :
    BackLinked (fun n => ((l.linkPrev x b).node n).prev) none (A ++ x :: B) := by
  have hnd' : ((header :: A) ++ x :: B).Nodup := hnd
  obtain ⟨hxA,hxB,hAB⟩ := not_mem_of_nodup_split hnd'
  refine h.insert (fun c hc => ?_) ?_ (fun d B' hB => ?_)
  · -- a node before `x` keeps its back pointer
    have hcx : c ≠ x := fun e => hxA (e ▸ .tail _ hc)
    have hcB : l.loadNext x 0 ≠ some c := by
      rw [hnext]
      cases B with
      | nil => simp
      | cons d B => exact fun e => hAB c (.tail _ hc) (by simp at e; simp [e])
    simp [linkPrev_prev,hcB,hcx]
  · have hxB' : l.loadNext x 0 ≠ some x := by
      rw [hnext]
      cases B with
      | nil => simp
      | cons d B => exact fun e => hxB (by simp at e; simp [e])
    rw [linkPrev_prev]
    simp only [hxB',if_false,true_and]
    cases A with
    | nil =>
      simp at hb
      simp [← hb,hx]
    | cons a A =>
      have hbA : b ∈ a :: A := List.mem_of_getLast? (by simpa using hb)
      have hbh : b ≠ header := fun e => (List.nodup_cons.mp hnd).1 (e ▸ List.mem_append_left _ hbA)
      simp only [hbh,ne_eq,not_false_eq_true,if_true]
      simpa using hb.symm
  · -- the node after `x` points back at it; the rest keep theirs
    subst hB
    have hnd'' := (List.nodup_cons.mp (List.nodup_append.mp hnd').2.1).2
    refine ⟨by simp [linkPrev_prev,hnext],fun c hc => ?_⟩
    have hcx : c ≠ x := fun e => hxB (e ▸ .tail _ hc)
    have hcd : c ≠ d := fun e => (List.nodup_cons.mp hnd'').1 (e ▸ hc)
    simp [linkPrev_prev,hnext,hcx,Ne.symm hcd]

theorem linkPrev_tail_eq {A B : List Nat} (ht : l.tail = (A ++ B).getLast?)
    (hnext : l.loadNext x 0 = B.head?) : (l.linkPrev x b).tail = (A ++ x :: B).getLast? := by
  rw [linkPrev_tail,hnext]
  cases B with
  | nil => simp
  | cons c B => simp [ht,List.getLast?_append]

end LinkPrev

/-! ### `Insert` -/

section Insert

variable {score : Binary64} {value : String}

/-- `Insert` after its search, at the `update` and `rank` arrays the search returned. -/
def spliceIn (l : Float64List) (u : Nat → Nat) (r : Nat → Int) (score : Binary64) (value : String)
    (level : Nat) : Float64List :=
  let g := l.grow u r level
  let a := g.1.alloc (newFloat64ListNode score value level)
  let l := ((a.1.linkLevels a.2 g.2.1 g.2.2 level).passLevels g.2.1 level).linkPrev a.2 (g.2.1 0)
  l.setLength (l.length + 1)

/-- The arrays of the search `Insert`, `Delete` and `UpdateScore` start with: the last node
before `(score, value)` at each level. -/
def searchBefore (l : Float64List) (score : Binary64) (value : String) : (Nat → Nat) × (Nat → Int) :=
  l.search fun _ n => (l.node n).lessThan score value

theorem Insert_eq (score : Binary64) (value : String) (level : Nat) :
    l.Insert score value level =
      (l.spliceIn (l.searchBefore score value).1 (l.searchBefore score value).2 score value level,
        l.fresh) := by
  simp only [Insert,spliceIn,searchBefore,alloc_snd,Prod.mk.injEq,true_and]
  exact (grow_spec _ _ level).1

/-- `searchBefore` stops at every level before the nodes whose key is not below the target. -/
theorem Chain.searchBefore_at (hc : l.Chain es) (hs : score.isNaN = false) {A B : List Nat}
    (hes : es = A ++ B) (hA : ∀ a ∈ A, (l.node a).key < target score value)
    (hB : ∀ b ∈ B, ¬ (l.node b).key < target score value) :
    ∀ i < l.highestLevel, LastAbove l.lvl i (header :: A) ((l.searchBefore score value).1 i)
      ((l.searchBefore score value).2 i) := by
  have hmem : ∀ n ∈ A ++ B, n ∈ es := fun n hn => hes ▸ hn
  refine hc.search hes (fun A₁ b A₂ h => ?_) (fun B₁ b B₂ h => ?_)
  · have hb : b ∈ A := by simp [h]
    exact (ListNode.lessThan_iff (hc.notNaN b (hmem b (by simp [hb]))) hs).mpr (hA b hb)
  · have hb : b ∈ B := by simp [h]
    exact Bool.eq_false_iff.mpr fun ht =>
      hB b hb ((ListNode.lessThan_iff (hc.notNaN b (hmem b (by simp [hb]))) hs).mp ht)

/-- The search of `Insert` cuts the list at the new key. -/
theorem Chain.searchBefore (hc : l.Chain es) (hs : score.isNaN = false)
    (hv : ∀ n ∈ es, (l.node n).value ≠ value) :
    ∃ A B, es = A ++ B ∧ (∀ a ∈ A, (l.node a).key < target score value) ∧
      (∀ b ∈ B, target score value < (l.node b).key) ∧
      ∀ i < l.highestLevel, LastAbove l.lvl i (header :: A) ((l.searchBefore score value).1 i)
        ((l.searchBefore score value).2 i) := by
  obtain ⟨A,B,hes,hA,hB⟩ := hc.cut score value
  refine ⟨A,B,hes,hA,fun b hb => ?_,hc.searchBefore_at hs hes hA hB⟩
  have hne : (l.node b).key ≠ target score value :=
    fun e => hv b (hes ▸ List.mem_append_right _ hb) (congrArg (fun k => (ofLex k).2) e)
  exact lt_of_le_of_ne (not_lt.mp (hB b hb)) hne.symm

/-- Everything `Insert` does after its search keeps the invariant, for a search that
stopped before `B` at every level. -/
theorem spliceIn_chain (hc : l.Chain es) {A B : List Nat} (hes : es = A ++ B)
    (hA : ∀ a ∈ A, (l.node a).key < target score value)
    (hB : ∀ b ∈ B, target score value < (l.node b).key)
    (hu : ∀ i < l.highestLevel, LastAbove l.lvl i (header :: A) (u i) (r i))
    (hs : score.isNaN = false) (h1 : 1 ≤ level) (hmax : level ≤ maxLevel) :
    (l.spliceIn u r score value level).Chain (A ++ l.fresh :: B) := by
  obtain ⟨hgf,hgt,hgl,hgn,hgH,-,-,-,-⟩ := grow_spec (l := l) u r level
  have hglay := hc.grow_layout u r level
  have hgabove := hc.grow_above u r level
  have hglast := hc.grow_lastAbove hes hu level
  have hH1 := hc.highest
  unfold spliceIn
  simp only [alloc_snd]
  generalize l.grow u r level = g at hgf hgt hgl hgn hgH hglay hgabove hglast ⊢
  rw [hgf]
  set n₀ := newFloat64ListNode score value level with hn₀
  set l₂ := (g.1.alloc n₀).1 with hl₂
  set l₄ := (l₂.linkLevels l.fresh g.2.1 g.2.2 level).passLevels g.2.1 level with hl₄
  have hx : ∀ m ∈ header :: es, m ≠ l.fresh := fun m hm => Nat.ne_of_lt (hc.allocated m hm)
  have hmemA : ∀ c ∈ header :: A, c ∈ header :: es := by
    intro c hc'
    rw [hes]
    simp only [List.mem_cons,List.mem_append] at hc' ⊢
    tauto
  have hmemB : ∀ c ∈ B, c ∈ es := fun c hc' => by rw [hes]; exact List.mem_append_right _ hc'
  have hnd : (header :: (A ++ l.fresh :: B)).Nodup := by
    have h := List.nodup_cons.mpr ⟨fun hm => hx _ hm rfl,hc.nodup⟩
    rw [hes] at h
    have h' : (l.fresh :: ((header :: A) ++ B)).Nodup := h
    exact List.nodup_middle.mpr h'
  have h2node : ∀ m, l₂.node m = if m = l.fresh then n₀ else g.1.node m := fun m => by
    rw [hl₂,alloc_node,hgf]
  have h2old : ∀ m ∈ header :: es, SameNode (l₂.node m) (l.node m) := fun m hm => by
    rw [h2node,if_neg (hx m hm)]
    exact hgn m
  have h2lvl : ∀ m ∈ header :: es, l₂.lvl m = l.lvl m := fun m hm => (h2old m hm).level
  have h2x : l₂.lvl l.fresh = level := by simp [lvl,h2node,hn₀,newFloat64ListNode]
  have h2H : l₂.highestLevel = max l.highestLevel level := by rw [hl₂,alloc_highestLevel,hgH]
  have h2lay : l₂.Layout (A ++ B) :=
    hes ▸ hglay.alloc (fun m hm => by rw [hgf]; exact hc.allocated m hm) n₀
  have h2last : ∀ i < l₂.highestLevel, LastAbove l₂.lvl i (header :: A) (g.2.1 i) (g.2.2 i) := by
    intro i hi
    rw [h2H,← hgH] at hi
    exact (hglast i hi).congr fun c hc' => h2lvl c (hmemA c hc')
  have hr0 := hc.lastAbove_zero hes (hglast 0 (by rw [hgH]; omega))
  have hux : ∀ i < level, g.2.1 i ≠ l.fresh := fun i hi e =>
    hx _ (hmemA _ (hglast i (by rw [hgH]; omega)).mem) e
  have hA2 : ∀ b ∈ A, l₂.lvl b ≤ l₂.highestLevel := fun b hb => by
    have hbe : b ∈ es := by rw [hes]; exact List.mem_append_left _ hb
    rw [h2lvl b (.tail _ hbe),h2H]
    exact le_trans (hc.levels b hbe).2 (le_max_left _ _)
  have h4lay : l₄.Layout (A ++ l.fresh :: B) :=
    h2lay.splice hnd hA2 h2x (by rw [h2H]; exact le_max_right _ _) h2last hr0.1
  have h4lo : LinksOnly l₂ l₄ := linksOnly_linkLevels.trans linksOnly_passLevels
  have hmem' : ∀ m ∈ A ++ l.fresh :: B, m = l.fresh ∨ m ∈ es := by
    intro m hm
    rw [hes]
    simp only [List.mem_append,List.mem_cons] at hm ⊢
    tauto
  have h4lvl : ∀ m ∈ A ++ l.fresh :: B, 1 ≤ l₄.lvl m ∧ l₄.lvl m ≤ max l.highestLevel level := by
    intro m hm
    rw [h4lo.lvl]
    rcases hmem' m hm with rfl | hme
    · rw [h2x]
      exact ⟨h1,le_max_right _ _⟩
    · rw [h2lvl m (.tail _ hme)]
      exact ⟨(hc.levels m hme).1,le_trans (hc.levels m hme).2 (le_max_left _ _)⟩
  have hxh : l.fresh ≠ header := fun e => hx header List.mem_cons_self e.symm
  have h4next : l₄.loadNext l.fresh 0 = B.head? :=
    h4lay.next_zero (fun m hm => (h4lvl m hm).1) (show header :: (A ++ l.fresh :: B) = (header :: A) ++
      l.fresh :: B from rfl) (by rw [h4lo.live]; simp [live,hxh,h2x]; omega)
  set l₅ := l₄.linkPrev l.fresh (g.2.1 0) with hl₅
  have h5node : ∀ m, (l₅.node m).score = (l₂.node m).score ∧ (l₅.node m).value = (l₂.node m).value ∧
      (l₅.node m).level = (l₂.node m).level := fun m =>
    ⟨(linkPrev_score m).trans (h4lo.node m).score,(linkPrev_value m).trans (h4lo.node m).value,
      (linkPrev_level m).trans (h4lo.node m).level⟩
  have h5H : l₅.highestLevel = max l.highestLevel level := by
    rw [hl₅,linkPrev_highestLevel,h4lo.highestLevel,h2H]
  have hkey : ∀ m, (l₅.node m).key = if m = l.fresh then target score value else (l.node m).key := by
    intro m
    by_cases hm : m = l.fresh
    · subst hm
      simp [ListNode.key,target,(h5node _).1,(h5node _).2.1,h2node,hn₀,newFloat64ListNode]
    · simp only [ListNode.key,(h5node m).1,(h5node m).2.1,h2node,hm,if_false]
      rw [(hgn m).score,(hgn m).value]
  refine ⟨hnd,fun m hm => ?_,fun m hm => ?_,?_,.inr ?_,h4lay.linkPrev,fun i hi => ?_,?_,fun m hm => ?_,
    ?_,?_,?_⟩
  · -- allocated
    change m < l₅.fresh
    rw [hl₅,linkPrev_fresh,h4lo.fresh,hl₂,alloc_fresh,hgf]
    rcases List.mem_cons.mp hm with rfl | hm
    · exact Nat.lt_succ_of_lt (hc.allocated header List.mem_cons_self)
    · rcases hmem' m hm with rfl | hme
      · exact Nat.lt_succ_self _
      · exact Nat.lt_succ_of_lt (hc.allocated m (.tail _ hme))
  · -- levels
    change 1 ≤ (l₅.node m).level ∧ (l₅.node m).level ≤ l₅.highestLevel
    rw [(h5node m).2.2,h5H]
    have h := h4lvl m hm
    rw [h4lo.lvl] at h
    exact h
  · -- highest
    change 1 ≤ l₅.highestLevel ∧ l₅.highestLevel ≤ maxLevel
    rw [h5H]
    exact ⟨le_trans hH1.1 (le_max_left _ _),max_le hH1.2 hmax⟩
  · -- top: the new node, or the old top node
    change ∃ n ∈ A ++ l.fresh :: B, (l₅.node n).level = l₅.highestLevel
    simp only [(h5node _).2.2,h5H]
    by_cases hle : l.highestLevel ≤ level
    · exact ⟨l.fresh,by simp,by rw [max_eq_right hle]; exact h2x⟩
    · rcases hc.top with ⟨rfl,h⟩ | ⟨n,hn,hnt⟩
      · omega
      · refine ⟨n,?_,?_⟩
        · rw [hes] at hn
          simp only [List.mem_append,List.mem_cons] at hn ⊢
          tauto
        · rw [max_eq_left (by omega)]
          exact (h2lvl n (.tail _ hn)).trans hnt
  · -- above: the links above the top are the header's old empty ones
    change l₅.highestLevel ≤ i at hi
    rw [h5H] at hi
    change l₅.loadNext header i = none ∧ l₅.loadSpan header i = 0
    rw [hl₅,linkPrev_loadNext,linkPrev_loadSpan,hl₄,splice_loadNext hux,splice_loadSpan hux,h2H]
    have hno : ¬ i < level := by omega
    have hno' : ¬ i < max l.highestLevel level := by omega
    simp only [hno,hno',false_and,and_false,if_false]
    have hh : l₂.node header = g.1.node header := by rw [h2node,if_neg hxh.symm]
    simp only [loadNext,loadSpan,hh]
    exact hgabove i (by rw [hgH]; omega)
  · -- sorted: the new key sits between `A` and `B`
    change (A ++ l.fresh :: B).Pairwise fun a b => (l₅.node a).key < (l₅.node b).key
    have hsorted := hc.sorted
    rw [hes,List.pairwise_append] at hsorted
    obtain ⟨hsA,hsB,hsAB⟩ := hsorted
    have hkA : ∀ a ∈ A, (l₅.node a).key = (l.node a).key := fun a ha => by
      rw [hkey,if_neg (hx a (hmemA a (.tail _ ha)))]
    have hkB : ∀ b ∈ B, (l₅.node b).key = (l.node b).key := fun b hb => by
      rw [hkey,if_neg (hx b (.tail _ (hmemB b hb)))]
    have hkx : (l₅.node l.fresh).key = target score value := by rw [hkey,if_pos rfl]
    rw [List.pairwise_append,List.pairwise_cons]
    refine ⟨hsA.imp_of_mem fun ha hb h => by rwa [hkA _ ha,hkA _ hb],
      ⟨fun b hb => by rw [hkx,hkB b hb]; exact hB b hb,
        hsB.imp_of_mem fun ha hb h => by rwa [hkB _ ha,hkB _ hb]⟩,fun a ha b hb => ?_⟩
    rw [hkA a ha]
    rcases List.mem_cons.mp hb with rfl | hb
    · rw [hkx]
      exact hA a ha
    · rw [hkB b hb]
      exact hsAB a ha b hb
  · -- notNaN
    change (l₅.node m).score.isNaN = false
    rw [(h5node m).1,h2node]
    rcases hmem' m hm with rfl | hme
    · simp [hn₀,newFloat64ListNode,hs]
    · rw [if_neg (hx m (.tail _ hme)),(hgn m).score]
      exact hc.notNaN m hme
  · -- prev
    change BackLinked (fun n => (l₅.node n).prev) none (A ++ l.fresh :: B)
    have hprev : BackLinked (fun n => (l₄.node n).prev) none (A ++ B) :=
      (hes ▸ hc.prev).congr fun n hn => by
        rw [(h4lo.node n).prev]
        exact (h2old n (.tail _ (hes ▸ hn))).prev
    exact linkPrev_backLinked hprev hnd h4next hr0.2 (by simp [(h4lo.node _).prev,h2node,hn₀,newFloat64ListNode])
  · -- tail
    change l₅.tail = (A ++ l.fresh :: B).getLast?
    rw [hl₅]
    refine linkPrev_tail_eq ?_ h4next
    rw [h4lo.tail,hl₂,alloc_tail,hgt,hc.tail,hes]
  · -- length
    change l₅.length + 1 = ((A ++ l.fresh :: B).length : Int)
    rw [hl₅,linkPrev_length,h4lo.length,hl₂,alloc_length,hgl,hc.length,hes]
    simp only [List.length_append,List.length_cons]
    omega

/-- What `spliceIn` leaves of the nodes' entries: the new node holds the new entry. -/
theorem spliceIn_entry (m : Nat) :
    ((l.spliceIn u r score value level).node m).score =
        (if m = l.fresh then score else (l.node m).score) ∧
      ((l.spliceIn u r score value level).node m).value =
        (if m = l.fresh then value else (l.node m).value) := by
  obtain ⟨hgf,-,-,hgn,-⟩ := grow_spec (l := l) u r level
  unfold spliceIn
  simp only [alloc_snd,setLength_node]
  generalize l.grow u r level = g at hgf hgn ⊢
  set l₂ := (g.1.alloc (newFloat64ListNode score value level)).1 with hl₂
  have h4 : SameNode (((l₂.linkLevels g.1.fresh g.2.1 g.2.2 level).passLevels g.2.1 level).node m)
      (l₂.node m) := (linksOnly_linkLevels.trans linksOnly_passLevels).node m
  rw [linkPrev_score,linkPrev_value,h4.score,h4.value,hl₂,alloc_node,hgf]
  by_cases hm : m = l.fresh
  · simp [hm,newFloat64ListNode]
  · simp only [hm,if_false]
    exact ⟨(hgn m).score,(hgn m).value⟩

@[simp] theorem spliceIn_fresh : (l.spliceIn u r score value level).fresh = l.fresh + 1 := by
  obtain ⟨hgf,-⟩ := grow_spec (l := l) u r level
  unfold spliceIn
  simp only [alloc_snd,setLength_fresh,linkPrev_fresh]
  rw [(linksOnly_linkLevels.trans linksOnly_passLevels).fresh,alloc_fresh,hgf]

/-- `Insert` of a non-NaN score under a value no node has keeps the invariant: the new
node goes between the nodes below its key and those above it. -/
theorem Chain.insert (hc : l.Chain es) (hs : score.isNaN = false)
    (hv : ∀ n ∈ es, (l.node n).value ≠ value) (h1 : 1 ≤ level) (hmax : level ≤ maxLevel) :
    ∃ A B, es = A ++ B ∧ (∀ a ∈ A, (l.node a).key < target score value) ∧
      (∀ b ∈ B, target score value < (l.node b).key) ∧
      (l.Insert score value level).1.Chain (A ++ l.fresh :: B) := by
  obtain ⟨A,B,hes,hA,hB,hu⟩ := hc.searchBefore hs hv
  rw [Insert_eq]
  exact ⟨A,B,hes,hA,hB,spliceIn_chain hc hes hA hB hu hs h1 hmax⟩

theorem Insert_entry (m : Nat) :
    ((l.Insert score value level).1.node m).score =
        (if m = l.fresh then score else (l.node m).score) ∧
      ((l.Insert score value level).1.node m).value =
        (if m = l.fresh then value else (l.node m).value) := by
  rw [Insert_eq]
  exact spliceIn_entry m

theorem Insert_fresh : (l.Insert score value level).1.fresh = l.fresh + 1 := by
  rw [Insert_eq]
  exact spliceIn_fresh

end Insert

end Float64List

end Gkit.Zset
