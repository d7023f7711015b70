import Mathlib

/-!
The layout of a skip list over any node type. The level-0 order is a list headed by a
sentinel; every node has a level, and its link at level `i` goes to the next node that
rises above `i`, spanning the level-0 steps to it, or to nothing, spanning the rest of
the list. `Canonical` says every live link is that one. The lemmas say what the search
walk finds on a canonical layout, and that splicing a node in or out by the usual
pointer updates gives the canonical layout of the new list.
-/

namespace SkipList

variable {α : Type}

/-! ### Where a link goes -/

section Hop

variable (lvl : α → Nat)

/-- The link of a node followed by `post`, at level `i`: the first later node above `i`
and its distance, or nothing and the length of `post`. -/
def hop (i : Nat) : List α → Option α × Nat
  | [] => (none,0)
  | b :: rest => if i < lvl b then (some b,1) else ((hop i rest).1,(hop i rest).2 + 1)

/-- No node of `xs` rises above level `i`. -/
def Below (i : Nat) (xs : List α) : Prop := ∀ b ∈ xs, lvl b ≤ i

variable {lvl} {i : Nat} {b : α} {xs ys : List α}

@[simp] theorem hop_nil (i : Nat) : hop lvl i ([] : List α) = (none,0) := rfl

theorem hop_cons_of_lt (h : i < lvl b) (rest : List α) : hop lvl i (b :: rest) = (some b,1) := by
  simp [hop,h]

theorem hop_cons_of_le (h : lvl b ≤ i) (rest : List α) :
    hop lvl i (b :: rest) = ((hop lvl i rest).1,(hop lvl i rest).2 + 1) := by
  simp [hop,Nat.not_lt.mpr h]

theorem Below.tail (h : Below lvl i (b :: xs)) : Below lvl i xs := fun c hc => h c (.tail _ hc)

theorem Below.append (hx : Below lvl i xs) (hy : Below lvl i ys) : Below lvl i (xs ++ ys) := by
  intro c hc
  rcases List.mem_append.mp hc with hc | hc
  · exact hx c hc
  · exact hy c hc

theorem hop_append_of_below (h : Below lvl i xs) (ys : List α) :
    hop lvl i (xs ++ ys) = ((hop lvl i ys).1,xs.length + (hop lvl i ys).2) := by
  induction xs with
  | nil => simp
  | cons c xs ih =>
    rw [List.cons_append,hop_cons_of_le (h c List.mem_cons_self),ih h.tail]
    simp only [List.length_cons]
    congr 1
    omega

theorem hop_append_of_above (hb : b ∈ xs) (hi : i < lvl b) (ys : List α) :
    hop lvl i (xs ++ ys) = hop lvl i xs := by
  induction xs with
  | nil => cases hb
  | cons c xs ih =>
    by_cases hc : i < lvl c
    · rw [List.cons_append,hop_cons_of_lt hc,hop_cons_of_lt hc]
    · have hb' : b ∈ xs := by
        rcases List.mem_cons.mp hb with rfl | hb
        · exact absurd hi hc
        · exact hb
      rw [List.cons_append,hop_cons_of_le (Nat.le_of_not_lt hc),hop_cons_of_le (Nat.le_of_not_lt hc),
        ih hb']

theorem hop_of_below (h : Below lvl i xs) : hop lvl i xs = (none,xs.length) := by
  simpa using hop_append_of_below h []

theorem hop_split (hm : Below lvl i xs) (hb : i < lvl b) (rest : List α) :
    hop lvl i (xs ++ b :: rest) = (some b,xs.length + 1) := by
  rw [hop_append_of_below hm,hop_cons_of_lt hb]

theorem hop_cases (lvl : α → Nat) (i : Nat) (xs : List α) :
    Below lvl i xs ∨ ∃ m c rest, xs = m ++ c :: rest ∧ Below lvl i m ∧ i < lvl c := by
  induction xs with
  | nil => exact .inl (fun _ h => absurd h List.not_mem_nil)
  | cons c xs ih =>
    by_cases hc : i < lvl c
    · exact .inr ⟨[],c,xs,rfl,fun _ h => absurd h List.not_mem_nil,hc⟩
    · rcases ih with hx | ⟨m,d,rest,rfl,hm,hd⟩
      · left
        intro d hd
        rcases List.mem_cons.mp hd with rfl | hd
        · exact Nat.le_of_not_lt hc
        · exact hx d hd
      · right
        refine ⟨c :: m,d,rest,rfl,?_,hd⟩
        intro e he
        rcases List.mem_cons.mp he with rfl | he
        · exact Nat.le_of_not_lt hc
        · exact hm e he

theorem mem_of_hop (h : (hop lvl i xs).1 = some b) : b ∈ xs := by
  induction xs with
  | nil => cases h
  | cons c xs ih =>
    by_cases hc : i < lvl c
    · rw [hop_cons_of_lt hc] at h
      cases h
      exact List.mem_cons_self
    · rw [hop_cons_of_le (Nat.le_of_not_lt hc)] at h
      exact .tail _ (ih h)

theorem lt_of_hop (h : (hop lvl i xs).1 = some b) : i < lvl b := by
  induction xs with
  | nil => cases h
  | cons c xs ih =>
    by_cases hc : i < lvl c
    · rw [hop_cons_of_lt hc] at h
      cases h
      exact hc
    · rw [hop_cons_of_le (Nat.le_of_not_lt hc)] at h
      exact ih h

theorem below_of_hop_none (h : (hop lvl i xs).1 = none) : Below lvl i xs := by
  rcases hop_cases lvl i xs with hb | ⟨m,c,rest,rfl,hm,hc⟩
  · exact hb
  · rw [hop_split hm hc] at h
    cases h

theorem exists_above_of_not_below (h : ¬ Below lvl i xs) : ∃ c ∈ xs, i < lvl c := by
  simp only [Below,not_forall,Nat.not_le] at h
  obtain ⟨c,hc,hlt⟩ := h
  exact ⟨c,hc,hlt⟩

end Hop

/-! ### Splitting a list at a node -/

section Split

variable {a b x : α} {xs ys pre post : List α}

theorem split_unique (hnd : (xs ++ a :: ys).Nodup) (h : xs ++ a :: ys = pre ++ a :: post) :
    xs = pre ∧ ys = post := by
  induction xs generalizing pre with
  | nil =>
    cases pre with
    | nil => simpa using h
    | cons c pre =>
      simp only [List.nil_append,List.cons_append,List.cons.injEq] at h
      obtain ⟨rfl,rfl⟩ := h
      simp at hnd
  | cons c xs ih =>
    cases pre with
    | nil =>
      simp only [List.nil_append,List.cons_append,List.cons.injEq] at h
      obtain ⟨rfl,rfl⟩ := h
      simp at hnd
    | cons d pre =>
      simp only [List.cons_append,List.cons.injEq] at h
      obtain ⟨rfl,h⟩ := h
      have := ih (List.nodup_cons.mp hnd).2 h
      exact ⟨by rw [this.1],this.2⟩

theorem split_three (h : xs ++ x :: ys = pre ++ a :: post) :
    (∃ m, xs = pre ++ a :: m ∧ post = m ++ x :: ys) ∨ (pre = xs ∧ a = x ∧ post = ys) ∨
      ∃ m, ys = m ++ a :: post ∧ pre = xs ++ x :: m := by
  rcases List.append_eq_append_iff.mp h with ⟨m,rfl,hm⟩ | ⟨m,rfl,hm⟩
  · cases m with
    | nil =>
      simp only [List.nil_append,List.cons.injEq] at hm
      obtain ⟨rfl,rfl⟩ := hm
      exact .inr (.inl ⟨by simp,rfl,rfl⟩)
    | cons c m =>
      simp only [List.cons_append,List.cons.injEq] at hm
      obtain ⟨rfl,rfl⟩ := hm
      exact .inr (.inr ⟨m,rfl,by simp⟩)
  · cases m with
    | nil =>
      simp only [List.nil_append,List.cons.injEq] at hm
      obtain ⟨rfl,rfl⟩ := hm
      exact .inr (.inl ⟨by simp,rfl,rfl⟩)
    | cons c m =>
      simp only [List.cons_append,List.cons.injEq] at hm
      obtain ⟨rfl,rfl⟩ := hm
      exact .inl ⟨m,rfl,rfl⟩

theorem split_two (h : xs ++ ys = pre ++ a :: post) :
    (∃ m, xs = pre ++ a :: m ∧ post = m ++ ys) ∨ ∃ m, ys = m ++ a :: post ∧ pre = xs ++ m := by
  rcases List.append_eq_append_iff.mp h with ⟨m,rfl,hm⟩ | ⟨m,rfl,hm⟩
  · exact .inr ⟨m,hm,rfl⟩
  · cases m with
    | nil =>
      simp only [List.nil_append] at hm
      exact .inr ⟨[],by simp [hm],by simp⟩
    | cons c m =>
      simp only [List.cons_append,List.cons.injEq] at hm
      obtain ⟨rfl,rfl⟩ := hm
      exact .inl ⟨m,rfl,rfl⟩

theorem mem_of_split_ne_nil {c : α} (h : c :: xs = pre ++ a :: post) (hp : pre ≠ []) : a ∈ xs := by
  cases pre with
  | nil => exact absurd rfl hp
  | cons d pre =>
    simp only [List.cons_append,List.cons.injEq] at h
    rw [h.2]
    simp

theorem eq_of_split_nil {c : α} (h : c :: xs = [] ++ a :: post) : a = c ∧ post = xs := by
  simp only [List.nil_append,List.cons.injEq] at h
  exact ⟨h.1.symm,h.2.symm⟩

theorem not_mem_of_nodup_split (hnd : (xs ++ x :: ys).Nodup) : x ∉ xs ∧ x ∉ ys ∧
    ∀ c ∈ xs, c ∉ ys := by
  rw [List.nodup_append] at hnd
  obtain ⟨_,hy,hd⟩ := hnd
  refine ⟨fun hx => hd x hx x List.mem_cons_self rfl,(List.nodup_cons.mp hy).1,
    fun c hc hcy => hd c hc c (.tail _ hcy) rfl⟩

end Split

/-! ### The canonical layout -/

section Layout

variable (lvl : α → Nat) (next : α → Nat → Option α) (span : α → Nat → Int) (live : α → Nat)

/-- Every live link of every node of `seq` is the one `hop` describes; `live a` is how
many of `a`'s levels are in use. -/
def Canonical (seq : List α) : Prop :=
  ∀ pre a post, seq = pre ++ a :: post → ∀ i < live a,
    next a i = (hop lvl i post).1 ∧ span a i = (hop lvl i post).2

/-- `b`, at position `p` of `xs`, is the last node of `xs` a search at level `i` can stop
at: the head, or a node above `i`, with only low nodes after it. -/
def LastAbove (i : Nat) (xs : List α) (b : α) (p : Int) : Prop :=
  ∃ m₁ m₂, xs = m₁ ++ b :: m₂ ∧ Below lvl i m₂ ∧ (m₁ = [] ∨ i < lvl b) ∧ p = m₁.length

variable {lvl next span live}

theorem LastAbove.unique {i : Nat} {xs : List α} {b b' : α} {p p' : Int}
    (h : LastAbove lvl i xs b p) (h' : LastAbove lvl i xs b' p') : b = b' ∧ p = p' := by
  obtain ⟨m₁,m₂,hs,hb,hm,rfl⟩ := h
  obtain ⟨m₁',m₂',hs',hb',hm',rfl⟩ := h'
  rw [hs] at hs'
  rcases List.append_eq_append_iff.mp hs' with ⟨c,rfl,hc⟩ | ⟨c,rfl,hc⟩
  · cases c with
    | nil =>
      simp only [List.nil_append,List.cons.injEq] at hc
      exact ⟨hc.1,by simp⟩
    | cons d c =>
      simp only [List.cons_append,List.cons.injEq] at hc
      obtain ⟨rfl,rfl⟩ := hc
      have hlow := hb b' (List.mem_append_right _ List.mem_cons_self)
      rcases hm' with hm' | hm'
      · simp at hm'
      · omega
  · cases c with
    | nil =>
      simp only [List.nil_append,List.cons.injEq] at hc
      exact ⟨hc.1.symm ▸ rfl,by simp⟩
    | cons d c =>
      simp only [List.cons_append,List.cons.injEq] at hc
      obtain ⟨rfl,rfl⟩ := hc
      have hlow := hb' b (List.mem_append_right _ List.mem_cons_self)
      rcases hm with hm | hm
      · simp at hm
      · omega

theorem lastAbove_of_below {i : Nat} {pre m : List α} {b : α} (hm : Below lvl i m)
    (hb : pre = [] ∨ i < lvl b) : LastAbove lvl i (pre ++ b :: m) b pre.length :=
  ⟨pre,m,rfl,hm,hb,rfl⟩

theorem LastAbove.congr {i : Nat} {xs : List α} {b : α} {p : Int} {lvl' : α → Nat}
    (h : LastAbove lvl i xs b p) (hl : ∀ c ∈ xs, lvl' c = lvl c) : LastAbove lvl' i xs b p := by
  obtain ⟨m₁,m₂,hs,hm,hb,hp⟩ := h
  have hmem : ∀ c ∈ m₂, c ∈ xs := fun c hc => by rw [hs]; simp [hc]
  refine ⟨m₁,m₂,hs,fun c hc => by rw [hl c (hmem c hc)]; exact hm c hc,?_,hp⟩
  rcases hb with hb | hb
  · exact .inl hb
  · right
    rw [hl b (by rw [hs]; simp)]
    exact hb

theorem Canonical.mono {seq : List α} {live' : α → Nat} (hc : Canonical lvl next span live seq)
    (h : ∀ b, live' b ≤ live b) : Canonical lvl next span live' seq :=
  fun pre a post hs i hi => hc pre a post hs i (Nat.lt_of_lt_of_le hi (h a))

/-- Links that are not live, and nodes outside the list, do not matter. -/
theorem Canonical.congr {seq : List α} {lvl' : α → Nat} {next' : α → Nat → Option α}
    {span' : α → Nat → Int} {live' : α → Nat} (hc : Canonical lvl next span live seq)
    (hl : ∀ b ∈ seq, lvl' b = lvl b) (hv : ∀ b ∈ seq, live' b = live b)
    (hn : ∀ b ∈ seq, ∀ i < live b, next' b i = next b i ∧ span' b i = span b i) :
    Canonical lvl' next' span' live' seq := by
  intro pre a post hs i hi
  have hmem : a ∈ seq := hs ▸ List.mem_append_right _ List.mem_cons_self
  rw [hv a hmem] at hi
  have hpost : ∀ c ∈ post, lvl' c = lvl c := fun c hc =>
    hl c (hs ▸ List.mem_append_right _ (List.mem_cons_of_mem _ hc))
  have hhop : hop lvl' i post = hop lvl i post := by
    clear hs
    induction post with
    | nil => rfl
    | cons c post ih =>
      have hc := hpost c List.mem_cons_self
      simp only [hop,hc,ih (fun d hd => hpost d (.tail _ hd))]
  rw [(hn a hmem i hi).1,(hn a hmem i hi).2,hhop]
  exact hc pre a post hs i hi

end Layout

/-! ### The search walk -/

section Walk

variable (next : α → Nat → Option α) (span : α → Nat → Int)

/-- Walk along level `i` from `x`, at position `r`, while `go` accepts the next node at
the position the walk would reach; at most `fuel` steps. -/
def walk (go : Int → α → Bool) (i : Nat) : Nat → α → Int → α × Int
  | 0, x, r => (x,r)
  | fuel + 1, x, r =>
    match next x i with
    | some n => if go (r + span x i) n then walk go i fuel n (r + span x i) else (x,r)
    | none => (x,r)

/-- The search from the top of `top` levels down to level 0, recording where each level
stopped; entries above `top` keep the head and rank 0. -/
def descend (go : Int → α → Bool) (fuel : Nat) (h : α) : Nat → α → Int → (Nat → α) × (Nat → Int)
  | 0, _, _ => (fun _ => h,fun _ => 0)
  | i + 1, x, r =>
    let p := walk next span go i fuel x r
    let d := descend go fuel h i p.1 p.2
    (Function.update d.1 i p.1,Function.update d.2 i p.2)

variable {lvl : α → Nat} {live : α → Nat} {next span}

/-- On a canonical layout, a walk that `go` lets through every node of `mid` and stops at
every node of `rest` ends at the last node of `a :: mid` live at level `i`, having added
up its position. -/
theorem walk_canonical {seq pre mid rest : List α} {a : α} {i fuel : Nat}
    {go : Int → α → Bool} (hc : Canonical lvl next span live seq)
    (hs : seq = pre ++ a :: (mid ++ rest)) (ha : i < live a)
    (hlive : ∀ b ∈ mid ++ rest, live b = lvl b)
    (hmid : ∀ m₁ b m₂, mid = m₁ ++ b :: m₂ → go (pre.length + m₁.length + 1) b = true)
    (hrest : ∀ r₁ b r₂, rest = r₁ ++ b :: r₂ →
      go (pre.length + mid.length + r₁.length + 1) b = false)
    (hfuel : mid.length < fuel) :
    ∃ m₁ b m₂, a :: mid = m₁ ++ b :: m₂ ∧ Below lvl i m₂ ∧ (m₁ = [] ∨ i < lvl b) ∧
      walk next span go i fuel a pre.length = (b,((pre.length + m₁.length : Nat) : Int)) := by
  induction fuel generalizing pre a mid with
  | zero => omega
  | succ fuel ih =>
    obtain ⟨hn,hsp⟩ := hc pre a (mid ++ rest) hs i ha
    rcases hop_cases lvl i mid with hm | ⟨m,c,mid',rfl,hm,hcl⟩
    · -- nothing of `mid` is high: the walk stays at `a`
      have hstay : walk next span go i (fuel + 1) a pre.length = (a,(pre.length : Int)) := by
        rw [hop_append_of_below hm] at hn hsp
        simp only [walk]
        rcases hop_cases lvl i rest with hr | ⟨r₁,c,r₂,rfl,hr,hcl⟩
        · rw [hop_of_below hr] at hn
          rw [hn]
        · rw [hop_split hr hcl] at hn hsp
          rw [hn]
          have hgo := hrest r₁ c r₂ rfl
          simp only at hsp
          rw [hsp]
          have : (pre.length : Int) + ((mid.length : Int) + ((r₁.length : Int) + 1)) =
              pre.length + mid.length + r₁.length + 1 := by omega
          push_cast
          rw [this,hgo]
          simp
      exact ⟨[],a,mid,rfl,hm,.inl rfl,by simpa using hstay⟩
    · -- the first high node `c` of `mid` lets the walk through
      rw [List.append_assoc,List.cons_append,hop_split hm hcl] at hn hsp
      have hgo : go (pre.length + m.length + 1) c = true := hmid m c mid' rfl
      have hstep : walk next span go i (fuel + 1) a pre.length =
          walk next span go i fuel c (pre.length + m.length + 1) := by
        simp only [walk,hn,hsp]
        push_cast
        rw [← Int.add_assoc,hgo]
        simp
      have hs' : seq = (pre ++ a :: m) ++ c :: (mid' ++ rest) := by simp [hs]
      have hlc : live c = lvl c := hlive c (by simp)
      obtain ⟨m₁,b,m₂,hsplit,hb,hab,hw⟩ := ih hs' (by omega)
        (fun d hd => hlive d (by simp at hd ⊢; tauto))
        (fun m₁ d m₂ he => by
          have := hmid (m ++ c :: m₁) d m₂ (by simp [he])
          simp only [List.length_append,List.length_cons] at this ⊢
          rw [← this]
          congr 1
          push_cast
          omega)
        (fun r₁ d r₂ he => by
          have := hrest r₁ d r₂ he
          simp only [List.length_append,List.length_cons] at this ⊢
          rw [← this]
          congr 1
          push_cast
          omega)
        (by simp at hfuel; omega)
      refine ⟨a :: m ++ m₁,b,m₂,?_,hb,.inr ?_,?_⟩
      · simp [hsplit]
      · rcases hab with rfl | hab
        · simp only [List.nil_append,List.cons.injEq] at hsplit
          exact hsplit.1 ▸ hcl
        · exact hab
      · have hpos : ((pre ++ a :: m).length : Int) = pre.length + m.length + 1 := by
          simp
          omega
        rw [hpos] at hw
        rw [hstep,hw]
        congr 1
        simp
        omega

theorem suffix_of_cons_split {c x : α} {A m₁ m₂ : List α} (h : c :: A = m₁ ++ x :: m₂) :
    ∃ t, A = t ++ m₂ ∧ t.length = m₁.length := by
  cases m₁ with
  | nil =>
    simp only [List.nil_append,List.cons.injEq] at h
    exact ⟨[],by simp [h.2],by simp⟩
  | cons d m₁ =>
    simp only [List.cons_append,List.cons.injEq] at h
    exact ⟨m₁ ++ [x],by simp [h.2],by simp⟩

/-- One level of a descent: on a canonical layout of `h :: (A ++ B)`, with `go` accepting
exactly the nodes of `A`, a walk at level `k` from a node of `h :: A` live there stops at
the last node of `h :: A` live at `k`, with its position as rank. -/
theorem walk_lastAbove {A B : List α} {h x : α} {fuel k : Nat} {go : Int → α → Bool}
    {m₁ m₂ : List α} (hc : Canonical lvl next span live (h :: (A ++ B)))
    (hlive : ∀ b ∈ A ++ B, live b = lvl b)
    (hA : ∀ A₁ b A₂, h :: A = A₁ ++ b :: A₂ → A₁ ≠ [] → go A₁.length b = true)
    (hB : ∀ B₁ b B₂, B = B₁ ++ b :: B₂ → go (A.length + B₁.length + 1) b = false)
    (hfuel : A.length < fuel) (hk : k < live h) (hsplit : h :: A = m₁ ++ x :: m₂)
    (hx : m₁ = [] ∨ k < lvl x) :
    LastAbove lvl k (h :: A) (walk next span go k fuel x m₁.length).1
      (walk next span go k fuel x m₁.length).2 := by
  obtain ⟨t,ht,htl⟩ := suffix_of_cons_split hsplit
  have hseq : h :: (A ++ B) = m₁ ++ x :: (m₂ ++ B) := by
    rw [← List.cons_append,hsplit]
    simp
  have hxl : k < live x := by
    cases m₁ with
    | nil =>
      simp only [List.nil_append,List.cons.injEq] at hsplit
      rw [← hsplit.1]
      exact hk
    | cons d m₁ =>
      simp only [List.cons_append,List.cons.injEq] at hsplit
      have hxm : x ∈ A ++ B := List.mem_append_left _ (hsplit.2 ▸ by simp)
      rw [hlive x hxm]
      simpa using hx
  have hlen : A.length = m₁.length + m₂.length := by
    rw [ht,List.length_append,htl]
  obtain ⟨n₁,b,n₂,hxs,hb,hab,hw⟩ : ∃ n₁ b n₂, x :: m₂ = n₁ ++ b :: n₂ ∧ Below lvl k n₂ ∧
      (n₁ = [] ∨ k < lvl b) ∧
      walk next span go k fuel x m₁.length = (b,((m₁.length + n₁.length : Nat) : Int)) :=
    walk_canonical hc hseq hxl (fun d hd => hlive d (by rw [ht]; simp at hd ⊢; tauto))
    (fun p₁ d p₂ he => by
      have hpos : ((m₁ ++ x :: p₁).length : Int) = m₁.length + p₁.length + 1 := by
        simp
        omega
      rw [← hpos]
      exact hA (m₁ ++ x :: p₁) d p₂ (by rw [hsplit,he]; simp) (by simp))
    (fun r₁ d r₂ he => by
      rw [← hB r₁ d r₂ he]
      congr 1
      omega)
    (by omega)
  rw [hw]
  refine ⟨m₁ ++ n₁,n₂,by rw [hsplit,hxs]; simp,hb,?_,by simp⟩
  rcases hab with rfl | hab
  · simp only [List.nil_append,List.cons.injEq] at hxs
    rw [← hxs.1]
    rcases hx with rfl | hx
    · exact .inl rfl
    · exact .inr hx
  · exact .inr hab

/-- The descent: on a canonical layout of `h :: (A ++ B)`, with `go` accepting exactly
the nodes of `A`, every level below the start stops at the last node of `h :: A` live
there, with its position as rank. -/
theorem descend_lastAbove {A B : List α} {h : α} {fuel : Nat} {go : Int → α → Bool}
    (hc : Canonical lvl next span live (h :: (A ++ B)))
    (hlive : ∀ b ∈ A ++ B, live b = lvl b)
    (hA : ∀ A₁ b A₂, h :: A = A₁ ++ b :: A₂ → A₁ ≠ [] → go A₁.length b = true)
    (hB : ∀ B₁ b B₂, B = B₁ ++ b :: B₂ → go (A.length + B₁.length + 1) b = false)
    (hfuel : A.length < fuel) :
    ∀ k x r, k ≤ live h → (∃ m₁ m₂, h :: A = m₁ ++ x :: m₂ ∧ r = m₁.length ∧
        (m₁ = [] ∨ k ≤ lvl x)) →
      ∀ i < k, LastAbove lvl i (h :: A) ((descend next span go fuel h k x r).1 i)
        ((descend next span go fuel h k x r).2 i) := by
  intro k
  induction k with
  | zero => intro _ _ _ _ i hi; omega
  | succ k ih =>
    intro x r hk ⟨m₁,m₂,hsplit,hr,hx⟩ i hi
    subst hr
    have hstop := walk_lastAbove hc hlive hA hB hfuel hk hsplit (hx.imp_right id)
    set p := walk next span go k fuel x m₁.length
    have hd : descend next span go fuel h (k + 1) x m₁.length =
        (Function.update (descend next span go fuel h k p.1 p.2).1 k p.1,
          Function.update (descend next span go fuel h k p.1 p.2).2 k p.2) := rfl
    rw [hd]
    dsimp only
    by_cases hik : i = k
    · subst hik
      simpa using hstop
    · rw [Function.update_of_ne hik,Function.update_of_ne hik]
      obtain ⟨c₁,c₂,hcs,hcb,hcab,hcp⟩ := hstop
      exact ih p.1 _ (by omega) ⟨c₁,c₂,hcs,hcp,hcab.imp_right Nat.le_of_lt⟩ i (by omega)

end Walk

/-! ### Splicing a node in or out -/

section Splice

variable {lvl : α → Nat} {next next' : α → Nat → Option α} {span span' : α → Nat → Int}
  {live live' : α → Nat} {h x : α} {A B : List α} {u : Nat → α} {rk : Nat → Int}

theorem LastAbove.live_lt {i : Nat} {b : α} {p : Int} (hb : LastAbove lvl i (h :: A) b p)
    (hlive : ∀ c ∈ A, live c = lvl c) (hih : i < live h) : i < live b := by
  obtain ⟨m₁,m₂,hs,_,hab,_⟩ := hb
  by_cases hm : m₁ = []
  · subst hm
    rw [(eq_of_split_nil hs).1]
    exact hih
  · rw [hlive b (mem_of_split_ne_nil hs hm)]
    exact hab.resolve_left hm

theorem LastAbove.link {i : Nat} {b : α} {p : Int} (hc : Canonical lvl next span live (h :: (A ++ B)))
    (hb : LastAbove lvl i (h :: A) b p) (hbi : i < live b) :
    next b i = (hop lvl i B).1 ∧ span b i = (A.length - p) + (hop lvl i B).2 := by
  obtain ⟨m₁,m₂,hs,hm,_,rfl⟩ := hb
  have hlen : A.length + 1 = m₁.length + 1 + m₂.length := by
    have := congrArg List.length hs
    simp at this
    omega
  have hold : h :: (A ++ B) = m₁ ++ b :: (m₂ ++ B) := by
    rw [← List.cons_append,hs]
    simp
  obtain ⟨hn,hsp⟩ := hc m₁ b (m₂ ++ B) hold i hbi
  rw [hop_append_of_below hm] at hn hsp
  refine ⟨hn,?_⟩
  rw [hsp]
  push_cast
  omega

theorem LastAbove.mem {i : Nat} {xs : List α} {b : α} {p : Int} (hb : LastAbove lvl i xs b p) :
    b ∈ xs := by
  obtain ⟨m₁,m₂,hs,_⟩ := hb
  rw [hs]
  simp

theorem LastAbove.eq_last {i : Nat} {xs : List α} {b : α} {p : Int} (hb : LastAbove lvl i xs b p)
    (hp : p + 1 = xs.length) : xs.getLast? = some b := by
  obtain ⟨m₁,m₂,hs,_,_,rfl⟩ := hb
  have hm₂ : m₂ = [] := by
    have := congrArg List.length hs
    simp only [List.length_append,List.length_cons] at this
    exact List.eq_nil_of_length_eq_zero (by omega)
  rw [hs,hm₂]
  simp

/-- A node of `h :: A` that level `i` did not stop at has a high node after it in `A`. -/
theorem exists_above_of_ne_lastAbove {i : Nat} {pre m : List α} {y : α}
    (hs : h :: A = pre ++ y :: m) (hlive : ∀ c ∈ A, live c = lvl c)
    (hyi : i < live y) (hu : LastAbove lvl i (h :: A) (u i) (rk i))
    (hne : y ≠ u i) : ∃ c ∈ m, i < lvl c := by
  apply exists_above_of_not_below
  intro hm
  apply hne
  have hy : pre = [] ∨ i < lvl y := by
    by_cases hp : pre = []
    · exact .inl hp
    · rw [← hlive y (mem_of_split_ne_nil hs hp)]
      exact .inr hyi
  have hla : LastAbove lvl i (h :: A) y pre.length := by
    rw [hs]
    exact lastAbove_of_below hm hy
  exact (hla.unique hu).1

/-- Splicing `x` in after `A`: below its level `x` takes over the link of the node each
level stopped at, that node links to `x`, and its links above pass over one more node. -/
theorem canonical_insert
    (hc : Canonical lvl next span live (h :: (A ++ B)))
    (hnd : (h :: (A ++ x :: B)).Nodup)
    (hlive : ∀ b ∈ A ++ B, live b = lvl b) (htop : ∀ b ∈ A, lvl b ≤ live h)
    (hxtop : lvl x ≤ live h) (hlx : live' x = lvl x) (hlive' : ∀ b, b ≠ x → live' b = live b)
    (hu : ∀ i < live h, LastAbove lvl i (h :: A) (u i) (rk i))
    (hx : ∀ i < lvl x, next' x i = next (u i) i ∧
      span' x i = span (u i) i - (A.length - rk i))
    (hlink : ∀ i < lvl x, next' (u i) i = some x ∧ span' (u i) i = A.length - rk i + 1)
    (hpass : ∀ i, lvl x ≤ i → i < live h →
      next' (u i) i = next (u i) i ∧ span' (u i) i = span (u i) i + 1)
    (hframe : ∀ b i, b ≠ x → (i < live h → b ≠ u i) →
      next' b i = next b i ∧ span' b i = span b i) :
    Canonical lvl next' span' live' (h :: (A ++ x :: B)) := by
  have hs0 : h :: (A ++ x :: B) = (h :: A) ++ x :: B := by simp
  rw [hs0] at hnd
  obtain ⟨hxA,hxB,hAB⟩ := not_mem_of_nodup_split hnd
  have hndA : (h :: A).Nodup := (List.nodup_append.mp hnd).1
  have hlA : ∀ c ∈ A, live c = lvl c := fun c hc => hlive c (List.mem_append_left _ hc)
  intro pre y post hs i hi
  rw [hs0] at hs
  rcases split_three hs with ⟨m,hA',rfl⟩ | ⟨rfl,rfl,rfl⟩ | ⟨m,hB',rfl⟩
  · -- `y` is the head or a node of `A`
    have hyA : y ∈ h :: A := by rw [hA']; simp
    have hyx : y ≠ x := fun e => hxA (e ▸ hyA)
    rw [hlive' y hyx] at hi
    have hold : h :: (A ++ B) = pre ++ y :: (m ++ B) := by
      rw [← List.cons_append,hA']
      simp
    obtain ⟨hn,hsp⟩ := hc pre y (m ++ B) hold i hi
    have hih : i < live h := by
      by_cases hp : pre = []
      · subst hp
        rw [← (eq_of_split_nil hA').1]
        exact hi
      · have hy := mem_of_split_ne_nil hA' hp
        rw [hlA y hy] at hi
        exact Nat.lt_of_lt_of_le hi (htop y hy)
    by_cases hyu : y = u i
    · -- level `i` stopped at `y`: only low nodes of `A` follow it
      subst hyu
      obtain ⟨m₁,m₂,hsu,hbm,_,hrk⟩ := hu i hih
      obtain ⟨hpre,hm⟩ := split_unique (hsu ▸ hndA) (hsu.symm.trans hA')
      rw [hpre] at hrk
      rw [hm] at hbm
      have hlen : A.length + 1 = pre.length + 1 + m.length := by
        have := congrArg List.length hA'
        simp at this
        omega
      by_cases hix : i < lvl x
      · rw [hop_split hbm hix,(hlink i hix).1,(hlink i hix).2,hrk]
        refine ⟨rfl,?_⟩
        push_cast
        omega
      · have hxi : lvl x ≤ i := Nat.le_of_not_lt hix
        rw [hop_append_of_below hbm] at hn hsp
        rw [hop_append_of_below hbm,hop_cons_of_le hxi,(hpass i hxi hih).1,(hpass i hxi hih).2,
          hn,hsp]
        refine ⟨rfl,?_⟩
        push_cast
        omega
    · -- a high node of `A` follows `y`, and `x` comes after it
      obtain ⟨c,hcm,hci⟩ := exists_above_of_ne_lastAbove hA' hlA hi (hu i hih) hyu
      obtain ⟨hn',hsp'⟩ := hframe y i hyx (fun _ => hyu)
      rw [hn',hsp',hn,hsp,hop_append_of_above hcm hci,hop_append_of_above hcm hci]
      exact ⟨rfl,rfl⟩
  · -- `y` is `x`: it takes over the link level `i` stopped at
    rw [hlx] at hi
    have hih : i < live h := Nat.lt_of_lt_of_le hi hxtop
    obtain ⟨hn,hsp⟩ := (hu i hih).link hc ((hu i hih).live_lt hlA hih)
    rw [(hx i hi).1,(hx i hi).2,hn,hsp]
    refine ⟨rfl,?_⟩
    omega
  · -- `y` is a node of `B`: nothing about it changes
    have hyB : y ∈ B := by rw [hB']; simp
    have hyx : y ≠ x := fun e => hxB (e ▸ hyB)
    rw [hlive' y hyx] at hi
    obtain ⟨hn',hsp'⟩ := hframe y i hyx (fun hih e => hAB (u i) (hu i hih).mem (e ▸ hyB))
    have hold : h :: (A ++ B) = (h :: A ++ m) ++ y :: post := by rw [hB']; simp
    rw [hn',hsp']
    exact hc _ y post hold i hi

/-- Splicing `x` out: each level's stop takes over `x`'s link where it linked to `x`,
and passes over one node fewer where it did not. -/
theorem canonical_erase
    (hc : Canonical lvl next span live (h :: (A ++ x :: B)))
    (hnd : (h :: (A ++ x :: B)).Nodup)
    (hlive : ∀ b ∈ A ++ x :: B, live b = lvl b) (htop : ∀ b ∈ A, lvl b ≤ live h)
    (hu : ∀ i < live h, LastAbove lvl i (h :: A) (u i) (rk i))
    (hunlink : ∀ i < live h, next (u i) i = some x →
      next' (u i) i = next x i ∧ span' (u i) i = span x i + span (u i) i - 1)
    (hpass : ∀ i < live h, next (u i) i ≠ some x →
      next' (u i) i = next (u i) i ∧ span' (u i) i = span (u i) i - 1)
    (hframe : ∀ b i, b ≠ x → (i < live h → b ≠ u i) →
      next' b i = next b i ∧ span' b i = span b i) :
    Canonical lvl next' span' live (h :: (A ++ B)) := by
  have hs0 : h :: (A ++ x :: B) = (h :: A) ++ x :: B := by simp
  rw [hs0] at hnd hc
  obtain ⟨hxA,hxB,hAB⟩ := not_mem_of_nodup_split hnd
  have hndA : (h :: A).Nodup := (List.nodup_append.mp hnd).1
  have hlA : ∀ c ∈ A, live c = lvl c := fun c hc => hlive c (List.mem_append_left _ hc)
  have hc' : Canonical lvl next span live (h :: (A ++ x :: B)) := by rw [hs0]; exact hc
  have hxlink : ∀ i < lvl x, next x i = (hop lvl i B).1 ∧ span x i = (hop lvl i B).2 := by
    intro i hi
    exact hc (h :: A) x B rfl i (by rw [hlive x (by simp)]; exact hi)
  intro pre y post hs i hi
  have hs2 : (h :: A) ++ B = pre ++ y :: post := by simpa using hs
  rcases split_two hs2 with ⟨m,hA',rfl⟩ | ⟨m,hB',rfl⟩
  · -- `y` is the head or a node of `A`
    have hyA : y ∈ h :: A := by rw [hA']; simp
    have hyx : y ≠ x := fun e => hxA (e ▸ hyA)
    have hold : (h :: A) ++ x :: B = pre ++ y :: (m ++ x :: B) := by rw [hA']; simp
    obtain ⟨hn,hsp⟩ := hc pre y (m ++ x :: B) hold i hi
    have hih : i < live h := by
      by_cases hp : pre = []
      · subst hp
        rw [← (eq_of_split_nil hA').1]
        exact hi
      · have hy := mem_of_split_ne_nil hA' hp
        rw [hlA y hy] at hi
        exact Nat.lt_of_lt_of_le hi (htop y hy)
    by_cases hyu : y = u i
    · subst hyu
      obtain ⟨m₁,m₂,hsu,hbm,_,_⟩ := hu i hih
      obtain ⟨_,hm⟩ := split_unique (hsu ▸ hndA) (hsu.symm.trans hA')
      rw [hm] at hbm
      by_cases hix : i < lvl x
      · -- `u i` linked to `x`
        rw [hop_split hbm hix] at hn hsp
        obtain ⟨hn',hsp'⟩ := hunlink i hih hn
        rw [hn',hsp',(hxlink i hix).1,(hxlink i hix).2,hsp,hop_append_of_below hbm]
        refine ⟨rfl,?_⟩
        push_cast
        omega
      · -- `u i` passed over `x`
        have hxi : lvl x ≤ i := Nat.le_of_not_lt hix
        rw [hop_append_of_below hbm,hop_cons_of_le hxi] at hn hsp
        have hne : next (u i) i ≠ some x := by
          rw [hn]
          intro e
          exact hxB (mem_of_hop e)
        obtain ⟨hn',hsp'⟩ := hpass i hih hne
        rw [hn',hsp',hn,hsp,hop_append_of_below hbm]
        refine ⟨rfl,?_⟩
        push_cast
        omega
    · obtain ⟨c,hcm,hci⟩ := exists_above_of_ne_lastAbove hA' hlA hi (hu i hih) hyu
      obtain ⟨hn',hsp'⟩ := hframe y i hyx (fun _ => hyu)
      rw [hn',hsp',hn,hsp,hop_append_of_above hcm hci,hop_append_of_above hcm hci]
      exact ⟨rfl,rfl⟩
  · -- `y` is a node of `B`
    have hyB : y ∈ B := by rw [hB']; simp
    have hyx : y ≠ x := fun e => hxB (e ▸ hyB)
    obtain ⟨hn',hsp'⟩ := hframe y i hyx (fun hih e => hAB (u i) (hu i hih).mem (e ▸ hyB))
    have hold : (h :: A) ++ x :: B = (h :: A ++ x :: m) ++ y :: post := by rw [hB']; simp
    rw [hn',hsp']
    exact hc _ y post hold i hi

end Splice

/-! ### Cutting a sorted list -/

section Cut

variable {β : Type} [LT β] {key : α → β}

theorem cut_of_sorted {xs : List α} (hs : xs.Pairwise fun a b => key a < key b) (P : α → Bool)
    (hP : ∀ a ∈ xs, ∀ b ∈ xs, key a < key b → P b = true → P a = true) :
    ∃ A B, xs = A ++ B ∧ (∀ a ∈ A, P a = true) ∧ ∀ b ∈ B, P b = false := by
  induction xs with
  | nil => exact ⟨[],[],rfl,by simp,by simp⟩
  | cons x xs ih =>
    obtain ⟨hx,hxs⟩ := List.pairwise_cons.mp hs
    by_cases hPx : P x = true
    · obtain ⟨A,B,rfl,hA,hB⟩ :=
        ih hxs fun a ha b hb => hP a (.tail _ ha) b (.tail _ hb)
      refine ⟨x :: A,B,rfl,?_,hB⟩
      intro a ha
      rcases List.mem_cons.mp ha with rfl | ha
      · exact hPx
      · exact hA a ha
    · refine ⟨[],x :: xs,rfl,by simp,?_⟩
      intro b hb
      rcases List.mem_cons.mp hb with rfl | hb
      · simpa using hPx
      · cases hPb : P b
        · rfl
        · exact absurd (hP x List.mem_cons_self b (.tail _ hb) (hx b hb) hPb) hPx

end Cut

/-! ### Re-keying a node in place -/

section Rekey

variable {β : Type} [Preorder β] {key key' : α → β}

/-- In a list sorted by `key`, giving `x` a key strictly between those of its neighbours
keeps the list sorted. -/
theorem pairwise_rekey {A B : List α} {x : α}
    (hs : (A ++ x :: B).Pairwise fun a b => key a < key b)
    (hk : ∀ c ∈ A ++ B, key' c = key c)
    (hlo : ∀ a ∈ A.getLast?, key a < key' x) (hhi : ∀ b ∈ B.head?, key' x < key b) :
    (A ++ x :: B).Pairwise fun a b => key' a < key' b := by
  rw [List.pairwise_append,List.pairwise_cons] at hs
  obtain ⟨hsA,⟨hxB,hsB⟩,hAB⟩ := hs
  have hkA : ∀ a ∈ A, key' a = key a := fun a ha => hk a (List.mem_append_left _ ha)
  have hkB : ∀ b ∈ B, key' b = key b := fun b hb => hk b (List.mem_append_right _ hb)
  have hAx : ∀ a ∈ A, key a < key' x := by
    rcases List.eq_nil_or_concat A with rfl | ⟨A',z,rfl⟩
    · simp
    · rw [List.concat_eq_append] at hsA hlo ⊢
      intro a ha
      have hz := hlo z (by simp)
      rcases List.mem_append.mp ha with ha | ha
      · exact lt_trans ((List.pairwise_append.mp hsA).2.2 a ha z (by simp)) hz
      · simp at ha
        exact ha ▸ hz
  have hxB' : ∀ b ∈ B, key' x < key b := by
    cases B with
    | nil => simp
    | cons c B =>
      have hc := hhi c (by simp)
      intro b hb
      rcases List.mem_cons.mp hb with rfl | hb
      · exact hc
      · exact lt_trans hc ((List.pairwise_cons.mp hsB).1 b hb)
  rw [List.pairwise_append,List.pairwise_cons]
  refine ⟨hsA.imp_of_mem fun ha hb h => by rwa [hkA _ ha,hkA _ hb],
    ⟨fun b hb => by rw [hkB b hb]; exact hxB' b hb,hsB.imp_of_mem fun ha hb h => by rwa [hkB _ ha,hkB _ hb]⟩,
    fun a ha b hb => ?_⟩
  rw [hkA a ha]
  rcases List.mem_cons.mp hb with rfl | hb
  · exact hAx a ha
  · rw [hkB b hb]
    exact hAB a ha b (.tail _ hb)

end Rekey

/-! ### Back pointers -/

section Back

variable (f : α → Option α)

/-- Along `xs`, each node's back pointer `f` is the node before it; the first one's is `p`. -/
def BackLinked : Option α → List α → Prop
  | _, [] => True
  | p, a :: as => f a = p ∧ BackLinked (some a) as

variable {f} {p : Option α} {a x : α} {xs ys : List α}

@[simp] theorem backLinked_nil : BackLinked f p [] := trivial

@[simp] theorem backLinked_cons : BackLinked f p (a :: xs) ↔ f a = p ∧ BackLinked f (some a) xs :=
  Iff.rfl

theorem getLast?_cons_or : (a :: xs).getLast?.or p = xs.getLast?.or (some a) := by
  cases h : xs.getLast? <;> simp [List.getLast?_cons,h]

theorem backLinked_append :
    BackLinked f p (xs ++ ys) ↔ BackLinked f p xs ∧ BackLinked f (xs.getLast?.or p) ys := by
  induction xs generalizing p with
  | nil => simp
  | cons b xs ih => rw [List.cons_append,backLinked_cons,backLinked_cons,ih,getLast?_cons_or,and_assoc]

theorem BackLinked.prev_eq (h : BackLinked f p (xs ++ a :: ys)) : f a = xs.getLast?.or p :=
  ((backLinked_append.mp h).2).1

theorem BackLinked.congr {f' : α → Option α} (h : BackLinked f p xs) (hf : ∀ b ∈ xs, f' b = f b) :
    BackLinked f' p xs := by
  induction xs generalizing p with
  | nil => trivial
  | cons b xs ih =>
    obtain ⟨hb,hxs⟩ := h
    exact ⟨(hf b List.mem_cons_self).trans hb,ih hxs fun c hc => hf c (.tail _ hc)⟩

/-- Linking `x` in between `xs` and `ys` sets its back pointer and that of the node after it. -/
theorem BackLinked.insert {f' : α → Option α} (h : BackLinked f p (xs ++ ys))
    (hxs : ∀ b ∈ xs, f' b = f b) (hx : f' x = xs.getLast?.or p)
    (hys : ∀ b ys', ys = b :: ys' → f' b = some x ∧ ∀ c ∈ ys', f' c = f c) :
    BackLinked f' p (xs ++ x :: ys) := by
  obtain ⟨hl,hr⟩ := backLinked_append.mp h
  refine backLinked_append.mpr ⟨hl.congr hxs,hx,?_⟩
  cases ys with
  | nil => trivial
  | cons b ys' =>
    obtain ⟨hb,hc⟩ := hys b ys' rfl
    exact ⟨hb,hr.2.congr hc⟩

/-- Unlinking `x` gives the node after it `x`'s back pointer. -/
theorem BackLinked.erase {f' : α → Option α} (h : BackLinked f p (xs ++ x :: ys))
    (hxs : ∀ b ∈ xs, f' b = f b)
    (hys : ∀ b ys', ys = b :: ys' → f' b = f x ∧ ∀ c ∈ ys', f' c = f c) :
    BackLinked f' p (xs ++ ys) := by
  obtain ⟨hl,hx,hr⟩ := backLinked_append.mp h
  refine backLinked_append.mpr ⟨hl.congr hxs,?_⟩
  cases ys with
  | nil => trivial
  | cons b ys' =>
    obtain ⟨hb,hc⟩ := hys b ys' rfl
    exact ⟨hb.trans hx,hr.2.congr hc⟩

end Back

end SkipList
