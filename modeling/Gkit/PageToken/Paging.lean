import Gkit.PageToken.RoundTrip

/-!
Paging through a collection with `ProcessPageTokens`: the first call passes "", each later one
the `nextToken` of the call before, until that is "". `pages` says what the calls should
return, the pages `[j * p, (j + 1) * p)` of `[0, n)` with the last one cut at `n`. The run
returns them all, one a call, when every token is read within `timeLimitation` of the start of
the second it was written in (`token.inTime`).
-/

namespace Gkit.PageToken

open Aes Strconv

/-! ### The pages of a collection -/

/-- How many pages `[0, n)` has at `p` elements a page: one when `p = 0` or `n ≤ p`. -/
def pageCount (n p : Int) : Nat := if p = 0 ∨ n ≤ p then 1 else ((n + p - 1) / p).toNat

/-- The pages `[j * p, (j + 1) * p)` of `[0, n)`, the last one ending at `n`. -/
def pages (n p : Int) : List (Int × Int) :=
  (List.range (pageCount n p)).map fun j : Nat =>
    (j * p, if j + 1 = pageCount n p then n else (j + 1) * p)

/-- The number of elements `ProcessPageTokens` pages through: `maxElements` bounds it when
set. -/
def token.clamp (t : token) (n : Int) : Int :=
  if t.maxElements = defaultMaxElements then n else min n t.maxElements

theorem pageCount_pos (n : Int) {p : Int} (hp : 0 ≤ p) : 0 < pageCount n p := by
  unfold pageCount
  split
  · exact Nat.one_pos
  · case isFalse h =>
    have hq : 1 ≤ (n + p - 1) / p := by
      rw [Int.le_ediv_iff_mul_le (by omega)]
      omega
    omega

theorem lt_pageCount_iff {n p : Int} (hp : 0 < p) (hnp : p < n) (j : Nat) :
    j < pageCount n p ↔ j * p < n := by
  have hcount : pageCount n p = ((n + p - 1) / p).toNat := if_neg (by omega)
  have hdiv : (j : Int) + 1 ≤ (n + p - 1) / p ↔ ((j : Int) + 1) * p ≤ n + p - 1 :=
    Int.le_ediv_iff_mul_le hp
  rw [hcount,Int.add_mul,Int.one_mul] at *
  omega

theorem pageCount_eq_one {n p : Int} (h : p = 0 ∨ n ≤ p) : pageCount n p = 1 := if_pos h

theorem lt_of_pos_lt_pageCount {n p : Int} (hp : 0 ≤ p) {j : Nat} (hj0 : 0 < j)
    (hj : j < pageCount n p) : 0 < p ∧ p < n := by
  by_cases h : p = 0 ∨ n ≤ p
  · rw [pageCount_eq_one h] at hj
    omega
  · omega

theorem length_pages (n p : Int) : (pages n p).length = pageCount n p := by
  rw [pages,List.length_map,List.length_range]

theorem getElem_pages (n p : Int) {j : Nat} (hj : j < (pages n p).length) :
    (pages n p)[j] = (j * p, if j + 1 = pageCount n p then n else (j + 1) * p) := by
  simp only [pages,List.getElem_map,List.getElem_range]

theorem pages_drop_last {n p : Int} {j : Nat} (hj : j + 1 = pageCount n p) :
    (pages n p).drop j = [(j * p, n)] := by
  have hlt : j < (pages n p).length := by rw [length_pages]; omega
  rw [List.drop_eq_getElem_cons hlt,getElem_pages,if_pos hj,List.drop_eq_nil_of_le]
  rw [length_pages]
  omega

theorem pages_drop_next {n p : Int} {j : Nat} (hj : j + 1 < pageCount n p) :
    (pages n p).drop j = (j * p, (j + 1) * p) :: (pages n p).drop (j + 1) := by
  have hlt : j < (pages n p).length := by rw [length_pages]; omega
  rw [List.drop_eq_getElem_cons hlt,getElem_pages,if_neg (by omega)]

/-- The pages partition `[0, n)` in order: the first starts at `0`, each ends where the next
starts and all but the last hold `p` elements, and the last ends at `n`; with `p = 0` there is
one page. -/
theorem pages_partition (n : Int) {p : Int} (hp : 0 ≤ p) :
    (pages n p).head?.map Prod.fst = some 0 ∧
      (∀ j (h : j + 1 < (pages n p).length),
        (pages n p)[j].2 = (pages n p)[j + 1].1 ∧ (pages n p)[j].2 - (pages n p)[j].1 = p) ∧
      (pages n p).getLast?.map Prod.snd = some n ∧
      (p = 0 → pages n p = [(0, n)]) := by
  have hpos := pageCount_pos n hp
  refine ⟨?_,fun j h => ?_,?_,fun hp0 => ?_⟩
  · rw [List.head?_eq_getElem?,List.getElem?_eq_getElem (by rw [length_pages]; exact hpos),
      getElem_pages,Option.map_some,Int.natCast_zero,Int.zero_mul]
  · rw [length_pages] at h
    rw [getElem_pages,getElem_pages,if_neg (by omega)]
    constructor
    · rfl
    · show (j + 1 : Int) * p - j * p = p
      rw [Int.add_mul,Int.one_mul]
      omega
  · have hlast : pageCount n p - 1 + 1 = pageCount n p := by omega
    rw [List.getLast?_eq_getElem?,length_pages,
      List.getElem?_eq_getElem (by rw [length_pages]; omega),getElem_pages,Option.map_some,
      if_pos hlast]
  · have h1 : pageCount n p = 1 := pageCount_eq_one (Or.inl hp0)
    have h0 := pages_drop_last (n := n) (p := p) (j := 0) (by omega)
    rw [List.drop_zero] at h0
    rw [h0,Int.natCast_zero,Int.zero_mul]

/-! ### The client's loop -/

section Paging

variable (c : Cipher) (tl : TimeLayout)

/-- A client paging through `numElements` with `pageSize`: each call has its instant and its
nonce, and the list of them bounds the number of calls. The result is the ranges
`[start, end)` returned, and whether a call returned "" as `nextToken`. -/
def pageThrough (t : token) (numElements pageSize : Int) :
    List (Int × Nonce) → List UInt8 → Except TokenError (List (Int × Int) × Bool)
  | [], _ => .ok ([], false)
  | (now, nonce) :: calls, pageToken =>
    match t.ProcessPageTokens c tl now nonce numElements pageSize pageToken with
    | .error e => .error e
    | .ok (start, stop, nextToken) =>
      if nextToken = [] then .ok ([(start, stop)], true)
      else (pageThrough t numElements pageSize calls nextToken).map
        fun (ranges, done) => ((start, stop) :: ranges, done)

theorem clamp_eq (t : token) (n : Int) :
    (if t.maxElements ≠ defaultMaxElements ∧ n > t.maxElements then t.maxElements else n) =
      t.clamp n := by
  unfold token.clamp
  by_cases h : t.maxElements = defaultMaxElements
  · rw [if_neg (fun h' => h'.1 h),if_pos h]
  · rw [if_neg h]
    split <;> omega

theorem page_stop {n p : Int} (hp : 0 ≤ p) {j : Nat} (hj : j < pageCount n p) :
    (if (if p = 0 then n else p) > n - j * p then n else j * p + (if p = 0 then n else p)) =
      if j + 1 = pageCount n p then n else (j + 1) * p := by
  by_cases h1 : p = 0 ∨ n ≤ p
  · -- one page, `[0, n)`
    have hc := pageCount_eq_one h1
    have hj0 : j = 0 := by omega
    subst hj0
    rw [if_pos (show 0 + 1 = pageCount n p by omega),Int.natCast_zero,Int.zero_mul,Int.sub_zero,
      Int.zero_add]
    by_cases hp0 : p = 0
    · rw [if_pos hp0]
      split <;> rfl
    · rw [if_neg hp0]
      split <;> omega
  · have hp0 : 0 < p := by omega
    have hnp : p < n := by omega
    rw [if_neg (show ¬p = 0 by omega),Int.add_mul,Int.one_mul]
    have hjn := (lt_pageCount_iff hp0 hnp j).mp hj
    by_cases hlast : j + 1 = pageCount n p
    · -- the last page ends at `n`
      have hge : ¬(j + 1) * p < n := by
        rw [← Int.natCast_add_one,← lt_pageCount_iff hp0 hnp]
        omega
      rw [if_pos hlast]
      rw [Int.add_mul,Int.one_mul] at hge
      split <;> omega
    · have hlt : (j + 1) * p < n := by
        rw [← Int.natCast_add_one,← lt_pageCount_iff hp0 hnp]
        omega
      rw [if_neg hlast]
      rw [Int.add_mul,Int.one_mul] at hlt
      rw [if_neg (by omega)]

theorem page_stop_lt {n p : Int} (hp : 0 ≤ p) {j : Nat} (hj : j < pageCount n p) :
    (if j + 1 = pageCount n p then n else (j + 1) * p) < n ↔ j + 1 ≠ pageCount n p := by
  by_cases hlast : j + 1 = pageCount n p
  · rw [if_pos hlast]
    omega
  · rw [if_neg hlast]
    have ⟨hp0,hnp⟩ := lt_of_pos_lt_pageCount (n := n) (j := j + 1) hp (Nat.succ_pos j) (by omega)
    have := (lt_pageCount_iff hp0 hnp (j + 1)).mp (by omega)
    rw [Int.natCast_add_one,Int.add_mul,Int.one_mul] at this
    rw [Int.add_mul,Int.one_mul]
    omega

variable {c : Cipher} (hc : c.Lawful) {tl : TimeLayout} (htl : tl.Lawful) (hfix : tl.FixedOffset)
include hc htl hfix

/-- The start of page `j`: `0` without a token, and from the token ForIndex wrote for
`j * p`. -/
theorem pageStart_page (t : token) {n p : Int} (hn : n < 2 ^ 63) (hp : 0 ≤ p)
    (hmax : t.maxIndex = defaultMaxIndex ∨ n ≤ t.maxIndex) {j : Nat}
    (hj : j < pageCount (t.clamp n) p) {tok : List UInt8} {now : Int}
    (htok : j = 0 ∧ tok = [] ∨
      0 < j ∧ ∃ gen nonce', tok = t.ForIndex c tl gen nonce' (j * p) ∧ t.inTime gen now) :
    t.pageStart c tl now (t.clamp n) tok = .ok (j * p) := by
  rcases htok with ⟨rfl,rfl⟩ | ⟨hj0,gen,nonce',rfl,htime⟩
  · rw [token.pageStart,if_neg (not_not.mpr rfl),Int.natCast_zero,Int.zero_mul]
  · have ⟨hp0,hnp⟩ := lt_of_pos_lt_pageCount hp hj0 hj
    have hjn := (lt_pageCount_iff hp0 hnp j).mp hj
    have hclamp : t.clamp n ≤ n := by
      unfold token.clamp
      split <;> omega
    have hnonneg : 0 ≤ (j : Int) * p := Int.mul_nonneg (Int.natCast_nonneg j) hp
    rw [token.pageStart,if_pos (forIndex_ne_nil hc t gen nonce' _),
      getIndex_forIndex hc htl hfix t nonce' ⟨by omega,by omega⟩ (by omega) htime]
    dsimp only
    rw [if_neg (by omega)]

/-- One call of the loop: page `j` and the token for page `j + 1`, or "" after the last. -/
theorem processPageTokens_page (t : token) {n p : Int} (hn : n < 2 ^ 63) (hp : 0 ≤ p)
    (hmax : t.maxIndex = defaultMaxIndex ∨ n ≤ t.maxIndex) {j : Nat}
    (hj : j < pageCount (t.clamp n) p) {tok : List UInt8} (now : Int) (nonce : Nonce)
    (htok : j = 0 ∧ tok = [] ∨
      0 < j ∧ ∃ gen nonce', tok = t.ForIndex c tl gen nonce' (j * p) ∧ t.inTime gen now) :
    t.ProcessPageTokens c tl now nonce n p tok =
      .ok (j * p, if j + 1 = pageCount (t.clamp n) p then t.clamp n else (j + 1) * p,
        if j + 1 = pageCount (t.clamp n) p then [] else t.ForIndex c tl now nonce ((j + 1) * p)) := by
  rw [token.ProcessPageTokens,if_neg (Int.not_lt.mpr hp)]
  dsimp only
  rw [clamp_eq,pageStart_page hc htl hfix t hn hp hmax hj htok]
  dsimp only
  rw [page_stop hp hj]
  by_cases hlast : j + 1 = pageCount (t.clamp n) p
  · rw [if_neg ((page_stop_lt hp hj).not.mpr (not_not.mpr hlast)),if_pos hlast,if_pos hlast]
  · rw [if_pos ((page_stop_lt hp hj).mpr hlast),if_neg hlast,if_neg hlast]

/-- From page `j` on, the loop returns the remaining pages, a call each. The token in hand is
the one for page `j`, and the next call reads it in time. -/
theorem pageThrough_from (t : token) {n p : Int} (hn : n < 2 ^ 63) (hp : 0 ≤ p)
    (hmax : t.maxIndex = defaultMaxIndex ∨ n ≤ t.maxIndex) (calls : List (Int × Nonce)) :
    ∀ (j : Nat) (tok : List UInt8) (gen : Int),
      j + calls.length = pageCount (t.clamp n) p → calls ≠ [] →
      (j = 0 ∧ tok = [] ∨ 0 < j ∧ (∃ nonce', tok = t.ForIndex c tl gen nonce' (j * p)) ∧
        ∀ call ∈ calls.head?, t.inTime gen call.1) →
      calls.IsChain (fun a b => t.inTime a.1 b.1) →
      pageThrough c tl t n p calls tok = .ok ((pages (t.clamp n) p).drop j, true) := by
  induction calls with
  | nil => exact fun _ _ _ _ hne => absurd rfl hne
  | cons call rest ih =>
    obtain ⟨now,nonce⟩ := call
    intro j tok gen hlen _ htok hchain
    have hj : j < pageCount (t.clamp n) p := by
      rw [List.length_cons] at hlen
      omega
    have htok' : j = 0 ∧ tok = [] ∨
        0 < j ∧ ∃ gen nonce', tok = t.ForIndex c tl gen nonce' (j * p) ∧ t.inTime gen now := by
      rcases htok with h | ⟨hj0,⟨nonce',htok⟩,htime⟩
      · exact Or.inl h
      · exact Or.inr ⟨hj0,gen,nonce',htok,htime (now,nonce) rfl⟩
    rw [pageThrough,processPageTokens_page hc htl hfix t hn hp hmax hj now nonce htok']
    dsimp only
    by_cases hlast : j + 1 = pageCount (t.clamp n) p
    · -- the last page: the call returns ""
      rw [if_pos hlast,if_pos hlast,if_pos rfl,pages_drop_last hlast]
    · rw [if_neg hlast,if_neg hlast,if_neg (forIndex_ne_nil hc t now nonce _)]
      have hrest : rest ≠ [] := by
        rintro rfl
        rw [List.length_cons,List.length_nil] at hlen
        omega
      obtain ⟨next,rest',rfl⟩ := List.exists_cons_of_ne_nil hrest
      have hnext := List.isChain_cons_cons.mp hchain
      have hlen' : j + 1 + (next :: rest').length = pageCount (t.clamp n) p := by
        simp only [List.length_cons] at hlen ⊢
        omega
      have htok'' : j + 1 = 0 ∧ t.ForIndex c tl now nonce (((j : Int) + 1) * p) = [] ∨
          0 < j + 1 ∧ (∃ nonce', t.ForIndex c tl now nonce (((j : Int) + 1) * p) =
            t.ForIndex c tl now nonce' (((j + 1 : Nat) : Int) * p)) ∧
          ∀ call ∈ (next :: rest').head?, t.inTime now call.1 :=
        Or.inr ⟨Nat.succ_pos j,⟨nonce,rfl⟩,fun call hcall => Option.some.inj hcall ▸ hnext.1⟩
      rw [ih (j + 1) _ now hlen' (List.cons_ne_nil _ _) htok'' hnext.2,
        pages_drop_next (show j + 1 < pageCount (t.clamp n) p by omega)]
      rfl

/-- Paging from "" returns the pages of `[0, clamp n)` in order, one a call, and stops after
the last: the amended coverage law. -/
theorem processPageTokens_covers (t : token) {n p : Int} (hn : n < 2 ^ 63) (hp : 0 ≤ p)
    (hmax : t.maxIndex = defaultMaxIndex ∨ n ≤ t.maxIndex) (calls : List (Int × Nonce))
    (hlen : calls.length = pageCount (t.clamp n) p)
    (htime : calls.IsChain fun a b => t.inTime a.1 b.1) :
    pageThrough c tl t n p calls [] = .ok (pages (t.clamp n) p, true) := by
  have hne : calls ≠ [] := by
    rintro rfl
    have := pageCount_pos (t.clamp n) hp
    rw [List.length_nil] at hlen
    omega
  have := pageThrough_from hc htl hfix t hn hp hmax calls 0 [] 0 (by omega) hne (Or.inl ⟨rfl,rfl⟩) htime
  rwa [List.drop_zero] at this

end Paging

/-- Five elements at two a page, under a one-second time limit: three calls, each within the
limit of the start of the second the token before was written in. -/
theorem processPageTokens_covers_five :
    TimeLayout.unixSeconds.FixedOffset ∧ (5 : Int) < 2 ^ 63 ∧ (0 : Int) ≤ 2 ∧
      ((NewTokenGenerate (GoUtf8.encode "a".toList) [.SetTimeLimitation 1000000000]).maxIndex =
          defaultMaxIndex ∨
        5 ≤ (NewTokenGenerate (GoUtf8.encode "a".toList) [.SetTimeLimitation 1000000000]).maxIndex) ∧
      [((0 : Int), (⟨List.replicate 12 0,rfl⟩ : Nonce)), (500000000, ⟨List.replicate 12 0,rfl⟩),
          (900000000, ⟨List.replicate 12 0,rfl⟩)].length =
        pageCount ((NewTokenGenerate (GoUtf8.encode "a".toList)
          [.SetTimeLimitation 1000000000]).clamp 5) 2 ∧
      [((0 : Int), (⟨List.replicate 12 0,rfl⟩ : Nonce)), (500000000, ⟨List.replicate 12 0,rfl⟩),
          (900000000, ⟨List.replicate 12 0,rfl⟩)].IsChain (fun a b =>
        (NewTokenGenerate (GoUtf8.encode "a".toList) [.SetTimeLimitation 1000000000]).inTime a.1 b.1) ∧
      pageThrough Cipher.plain TimeLayout.unixSeconds
          (NewTokenGenerate (GoUtf8.encode "a".toList) [.SetTimeLimitation 1000000000]) 5 2
          [(0, ⟨List.replicate 12 0,rfl⟩), (500000000, ⟨List.replicate 12 0,rfl⟩),
            (900000000, ⟨List.replicate 12 0,rfl⟩)] [] =
        .ok (pages ((NewTokenGenerate (GoUtf8.encode "a".toList)
          [.SetTimeLimitation 1000000000]).clamp 5) 2, true) := by
  have hn : (5 : Int) < 2 ^ 63 := by decide
  have hp : (0 : Int) ≤ 2 := by decide
  have hlen : [((0 : Int), (⟨List.replicate 12 0,rfl⟩ : Nonce)), (500000000, ⟨List.replicate 12 0,rfl⟩),
      (900000000, ⟨List.replicate 12 0,rfl⟩)].length =
        pageCount ((NewTokenGenerate (GoUtf8.encode "a".toList)
          [.SetTimeLimitation 1000000000]).clamp 5) 2 := by decide
  have htime : [((0 : Int), (⟨List.replicate 12 0,rfl⟩ : Nonce)), (500000000, ⟨List.replicate 12 0,rfl⟩),
      (900000000, ⟨List.replicate 12 0,rfl⟩)].IsChain (fun a b =>
        (NewTokenGenerate (GoUtf8.encode "a".toList) [.SetTimeLimitation 1000000000]).inTime a.1 b.1) := by
    decide
  exact ⟨TimeLayout.unixSeconds_fixedOffset,hn,hp,Or.inl rfl,hlen,htime,
    processPageTokens_covers Cipher.plain_lawful TimeLayout.unixSeconds_lawful
      TimeLayout.unixSeconds_fixedOffset _ hn hp (Or.inl rfl) _
      hlen htime⟩

/-- A token read within `timeLimitation` of when it was written, but later than that after the
start of its second, is overdue: written at 0.5 s under a one-second limit and read at 1.5 s,
the second page of two is refused. -/
theorem pageThrough_overdue_within_limit :
    (NewTokenGenerate (GoUtf8.encode "a".toList) [.SetTimeLimitation 1000000000]).timeLimitation =
        1000000000 ∧
      (1500000000 : Int) ≤ 500000000 + 1000000000 ∧
      pageThrough Cipher.plain TimeLayout.unixSeconds
          (NewTokenGenerate (GoUtf8.encode "a".toList) [.SetTimeLimitation 1000000000]) 2 1
          [(500000000, ⟨List.replicate 12 0,rfl⟩), (1500000000, ⟨List.replicate 12 0,rfl⟩)] [] =
        .error .ErrOverdueToken :=
  ⟨rfl,by decide,rfl⟩

end Gkit.PageToken
