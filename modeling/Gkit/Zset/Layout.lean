import Gkit.Zset.Skiplist
import Mathlib

/-!
The representation invariant of `float64List`. The nodes after the header along level 0
are a list `es`; every live link is the canonical one of `SkipList` over the heap's
levels, and the other fields (`prev`, `tail`, `length`, `highestLevel`, the scores) are
what that list says they are. The search every operation starts with then stops, at
each level, where `SkipList.descend_lastAbove` says.
-/

namespace Gkit.Zset

open SkipList

/-- The order the list keeps its nodes in: by score, then by value. -/
def ListNode.key (n : ListNode) : Lex (Int × String) := toLex (n.score.key,n.value)

/-- The key a search for `(score, value)` compares with. -/
def target (score : Binary64) (value : String) : Lex (Int × String) := toLex (score.key,value)

namespace ListNode

variable {n : ListNode} {score : Binary64} {value : String}

theorem lessThan_iff (hn : n.score.isNaN = false) (hs : score.isNaN = false) :
    n.lessThan score value = true ↔ n.key < target score value := by
  rw [key,target,Prod.Lex.toLex_lt_toLex]
  simp only [lessThan,Binary64.lt_eq hn hs,Binary64.beq_eq hn hs]
  by_cases h1 : n.score.key < score.key
  · simp [h1]
  · by_cases h2 : n.score.key = score.key <;> simp [h1,h2]

theorem lessEqual_iff (hn : n.score.isNaN = false) (hs : score.isNaN = false) :
    n.lessEqual score value = true ↔ n.key ≤ target score value := by
  rw [key,target,Prod.Lex.toLex_le_toLex]
  simp only [lessEqual,Binary64.lt_eq hn hs,Binary64.beq_eq hn hs]
  by_cases h1 : n.score.key < score.key
  · simp [h1]
  · by_cases h2 : n.score.key = score.key <;> simp [h1,h2]

theorem equal_iff (hn : n.score.isNaN = false) (hs : score.isNaN = false) :
    n.equal score value = true ↔ n.key = target score value := by
  rw [key,target,toLex_inj,Prod.ext_iff]
  simp only [equal,Binary64.beq_eq hn hs,Bool.and_eq_true,decide_eq_true_eq]
  exact And.comm

end ListNode

namespace Float64List

variable (l : Float64List)

/-- A node's level. -/
def lvl (n : Nat) : Nat := (l.node n).level

/-- How many of a node's levels are in use: the header's up to `highestLevel`. -/
def live (n : Nat) : Nat := if n = header then l.highestLevel else l.lvl n

/-- The entries of the nodes `es`, in list order: what a set holding them contains. -/
def members (es : List Nat) : List Float64Node := es.map fun n => ⟨(l.node n).value,(l.node n).score⟩

/-- Every live link of the header and of `es` is the canonical one. -/
def Layout (es : List Nat) : Prop := Canonical l.lvl l.loadNext l.loadSpan l.live (header :: es)

/-- The representation invariant, for the nodes `es` that follow the header along
level 0. -/
structure Chain (es : List Nat) : Prop where
  nodup : (header :: es).Nodup
  allocated : ∀ n ∈ header :: es, n < l.fresh
  levels : ∀ n ∈ es, 1 ≤ l.lvl n ∧ l.lvl n ≤ l.highestLevel
  highest : 1 ≤ l.highestLevel ∧ l.highestLevel ≤ maxLevel
  top : es = [] ∧ l.highestLevel = 1 ∨ ∃ n ∈ es, l.lvl n = l.highestLevel
  layout : l.Layout es
  above : ∀ i, l.highestLevel ≤ i → l.loadNext header i = none ∧ l.loadSpan header i = 0
  sorted : es.Pairwise fun a b => (l.node a).key < (l.node b).key
  notNaN : ∀ n ∈ es, (l.node n).score.isNaN = false
  prev : BackLinked (fun n => (l.node n).prev) none es
  tail : l.tail = es.getLast?
  length : l.length = es.length

variable {l} {es : List Nat}

theorem Chain.ne_header (hc : l.Chain es) {n : Nat} (hn : n ∈ es) : n ≠ header := by
  rintro rfl
  exact (List.nodup_cons.mp hc.nodup).1 hn

theorem Chain.live_eq (hc : l.Chain es) {n : Nat} (hn : n ∈ es) : l.live n = l.lvl n := by
  simp [live,hc.ne_header hn]

theorem live_header : l.live header = l.highestLevel := by simp [live]

theorem split_header {pre post : List Nat} {a : Nat} (hs : header :: es = pre ++ a :: post) :
    (pre = [] ∧ a = header ∧ post = es) ∨ a ∈ es := by
  by_cases hp : pre = []
  · subst hp
    obtain ⟨h1,h2⟩ := eq_of_split_nil hs
    exact .inl ⟨rfl,h1,h2⟩
  · exact .inr (mem_of_split_ne_nil hs hp)

theorem Chain.length_lt (hc : l.Chain es) : es.length < l.fresh := by
  have hsub : header :: es ⊆ List.range l.fresh := fun n hn => List.mem_range.mpr (hc.allocated n hn)
  have := (hc.nodup.subperm hsub).length_le
  simp at this
  omega

theorem Layout.next_zero (hlay : l.Layout es) (hlev : ∀ n ∈ es, 1 ≤ l.lvl n) {pre post : List Nat}
    {a : Nat} (hs : header :: es = pre ++ a :: post) (ha : 0 < l.live a) :
    l.loadNext a 0 = post.head? := by
  rw [(hlay pre a post hs 0 ha).1]
  cases post with
  | nil => rfl
  | cons b post =>
    have hsplit : header :: es = (pre ++ [a]) ++ b :: post := by rw [hs]; simp
    have hb : b ∈ es := mem_of_split_ne_nil hsplit (by simp)
    rw [hop_cons_of_lt (by have := hlev b hb; omega)]
    rfl

theorem Chain.next_of_split (hc : l.Chain es) {A B : List Nat} {x : Nat} (hes : es = A ++ x :: B) :
    l.loadNext x 0 = B.head? := by
  have hxes : x ∈ es := by rw [hes]; simp
  exact hc.layout.next_zero (fun n hn => (hc.levels n hn).1)
    (show header :: es = (header :: A) ++ x :: B by rw [hes]; rfl)
    (by rw [hc.live_eq hxes]; exact (hc.levels x hxes).1)

theorem Chain.prev_of_split (hc : l.Chain es) {A B : List Nat} {x : Nat} (hes : es = A ++ x :: B) :
    (l.node x).prev = A.getLast? := by
  have := (hes ▸ hc.prev).prev_eq
  simpa using this

theorem Chain.lastAbove_zero (hc : l.Chain es) {A B : List Nat} (hes : es = A ++ B) {b : Nat}
    {p : Int} (hb : LastAbove l.lvl 0 (header :: A) b p) : p = A.length ∧ (header :: A).getLast? = some b := by
  obtain ⟨m₁,m₂,hs,hm,_,rfl⟩ := hb
  have hm₂ : m₂ = [] := by
    cases m₂ with
    | nil => rfl
    | cons c m₂ =>
      have hsplit : header :: A = (m₁ ++ [b]) ++ c :: m₂ := by rw [hs]; simp
      have hcA : c ∈ A := mem_of_split_ne_nil hsplit (by simp)
      have := hm c List.mem_cons_self
      have := (hc.levels c (hes ▸ List.mem_append_left _ hcA)).1
      omega
  subst hm₂
  have := congrArg List.length hs
  simp at this
  refine ⟨by omega,?_⟩
  rw [hs]
  simp

/-- The search of any operation, when its test accepts exactly the nodes before the cut
`es = A ++ B`, stops at each live level at the last node of `header :: A` live there. -/
theorem Chain.search (hc : l.Chain es) {A B : List Nat} (hes : es = A ++ B) {go : Int → Nat → Bool}
    (hA : ∀ A₁ b A₂, A = A₁ ++ b :: A₂ → go (A₁.length + 1) b = true)
    (hB : ∀ B₁ b B₂, B = B₁ ++ b :: B₂ → go (A.length + B₁.length + 1) b = false) :
    ∀ i < l.highestLevel, LastAbove l.lvl i (header :: A) ((l.search go).1 i) ((l.search go).2 i) := by
  have hlay : Canonical l.lvl l.loadNext l.loadSpan l.live (header :: (A ++ B)) := hes ▸ hc.layout
  refine descend_lastAbove hlay (fun b hb => hc.live_eq (hes ▸ hb)) ?_ hB ?_ l.highestLevel header 0
    (by rw [live_header]) ⟨[],A,rfl,rfl,.inl rfl⟩
  · intro A₁ b A₂ hs hne
    cases A₁ with
    | nil => exact absurd rfl hne
    | cons c A₁ =>
      simp only [List.cons_append,List.cons.injEq] at hs
      have := hA A₁ b A₂ hs.2
      simpa using this
  · have := hc.length_lt
    rw [hes,List.length_append] at this
    omega

theorem Chain.search_next (hc : l.Chain es) {A B : List Nat} (hes : es = A ++ B) {b : Nat} {p : Int}
    (hb : LastAbove l.lvl 0 (header :: A) b p) : l.loadNext b 0 = B.head? := by
  have hlay : Canonical l.lvl l.loadNext l.loadSpan l.live (header :: (A ++ B)) := hes ▸ hc.layout
  have hlive : ∀ c ∈ A, l.live c = l.lvl c :=
    fun c hc' => hc.live_eq (hes ▸ List.mem_append_left _ hc')
  rw [(hb.link hlay (hb.live_lt hlive (by rw [live_header]; exact hc.highest.1))).1]
  cases B with
  | nil => rfl
  | cons c B =>
    have hc' : c ∈ es := by rw [hes]; simp
    rw [hop_cons_of_lt (by have := (hc.levels c hc').1; omega)]
    rfl

theorem members_congr {l' : Float64List} {xs : List Nat}
    (h : ∀ m ∈ xs, (l'.node m).score = (l.node m).score ∧ (l'.node m).value = (l.node m).value) :
    l'.members xs = l.members xs :=
  List.map_congr_left fun m hm => by rw [(h m hm).1,(h m hm).2]

theorem Chain.cut (hc : l.Chain es) (score : Binary64) (value : String) :
    ∃ A B, es = A ++ B ∧ (∀ a ∈ A, (l.node a).key < target score value) ∧
      ∀ b ∈ B, ¬ (l.node b).key < target score value := by
  obtain ⟨A,B,hes,hA,hB⟩ := cut_of_sorted hc.sorted (fun n => decide ((l.node n).key < target score value))
    (fun a _ b _ hab hb => by simpa using lt_trans hab (by simpa using hb))
  exact ⟨A,B,hes,fun a ha => by simpa using hA a ha,fun b hb => by simpa using hB b hb⟩

/-! ### Steps that change links only -/

/-- `l'` is `l` with some links changed and nothing else. -/
structure LinksOnly (l l' : Float64List) : Prop where
  fresh : l'.fresh = l.fresh
  tail : l'.tail = l.tail
  length : l'.length = l.length
  highestLevel : l'.highestLevel = l.highestLevel
  node : ∀ m, SameNode (l'.node m) (l.node m)

theorem LinksOnly.refl (l : Float64List) : LinksOnly l l := ⟨rfl,rfl,rfl,rfl,fun _ => SameNode.refl _⟩

theorem LinksOnly.trans {l₁ l₂ l₃ : Float64List} (h : LinksOnly l₁ l₂) (h' : LinksOnly l₂ l₃) :
    LinksOnly l₁ l₃ :=
  ⟨h'.fresh.trans h.fresh,h'.tail.trans h.tail,h'.length.trans h.length,
    h'.highestLevel.trans h.highestLevel,fun m => (h'.node m).trans (h.node m)⟩

theorem linksOnly_storeNext (n i : Nat) (p : Option Nat) : LinksOnly l (l.storeNext n i p) :=
  ⟨rfl,rfl,rfl,rfl,fun _ => sameNode_storeNext l _⟩

theorem linksOnly_storeSpan (n i : Nat) (s : Int) : LinksOnly l (l.storeSpan n i s) :=
  ⟨rfl,rfl,rfl,rfl,fun _ => sameNode_storeSpan l _⟩

theorem linksOnly_forRange {body : Float64List → Nat → Float64List}
    (hb : ∀ t i, LinksOnly t (body t i)) (start n : Nat) :
    LinksOnly l (Runs.forRange body start n l) :=
  Runs.forRange_induction (fun _ t => LinksOnly l t) (LinksOnly.refl l)
    (fun _ t ht => ht.trans (hb t _)) n

theorem LinksOnly.lvl {l l' : Float64List} (h : LinksOnly l l') : l'.lvl = l.lvl :=
  funext fun m => (h.node m).level

theorem LinksOnly.live {l l' : Float64List} (h : LinksOnly l l') : l'.live = l.live := by
  funext m
  simp only [Float64List.live,h.highestLevel,h.lvl]

end Float64List

end Gkit.Zset
