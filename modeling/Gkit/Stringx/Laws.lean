import Gkit.Stringx.Stringx
import Mathlib

/-!
The rune-level laws of `Sub`, `SubStart`, `Rotate` and `Reverse` on valid strings. `Sub` cuts
the runes `R[a:b]`, its indices counted from the end when negative and clamped to the runes;
`Rotate` is a right rotation by the shift modulo the rune count; `Reverse` reverses the runes,
but it takes every `RuneError` it decodes for a decoding failure, and U+FFFD is also what a
correctly encoded U+FFFD decodes to.
-/

namespace Gkit.Stringx

open GoUtf8 GoSlice

/-! ### The slice a pair of rune indices cuts -/

/-- A rune index of `Sub`: a negative one counts from the end of `n` runes. -/
def fromEnd (n : Nat) (i : Int) : Int := if i < 0 then i + n else i

/-- The runes `R[a:b]`. -/
def runeSlice (R : List Char) (a b : Int) : List Char := (R.take b.toNat).drop a.toNat

theorem collect_eq (start «end» : Int) :
    ∀ (k : Nat) (rs : List Char),
      collect start «end» k rs = (rs.take («end» - k).toNat).drop (start - k).toNat := by
  intro k rs
  induction rs generalizing k with
  | nil => simp [collect]
  | cons v vs ih =>
    unfold collect
    by_cases hend : (k : Int) ≥ «end»
    · rw [if_pos hend,show («end» - k).toNat = 0 by omega,List.take_zero,List.drop_nil]
    · rw [if_neg hend,ih,show («end» - k).toNat = («end» - (k + 1 : Nat)).toNat + 1 by omega,
        List.take_succ_cons]
      by_cases hstart : (k : Int) ≥ start
      · rw [if_pos hstart,show (start - k).toNat = 0 by omega,
          show (start - (k + 1 : Nat)).toNat = 0 by omega]
        rfl
      · rw [if_neg hstart,show (start - k).toNat = (start - (k + 1 : Nat)).toNat + 1 by omega]
        rfl

theorem wrap_add_length {i : Int} {n : Nat} (hlo : -2 ^ 63 ≤ i) (hneg : i < 0) (hn : n < 2 ^ 63) :
    wrap (i + n) = i + n :=
  wrap_of_lt (by omega) (by omega)

section Valid

variable (R : List Char)

/-- `Sub` of a valid string cuts its runes: negative indices count from the end, the end is
clamped to the runes and the start to zero. -/
theorem sub_encode (hR : R.length < 2 ^ 63) {start «end» : Int} (hs : -2 ^ 63 ≤ start)
    (he : -2 ^ 63 ≤ «end») :
    sub (encode R) start «end» =
      encode (runeSlice R (max (fromEnd R.length start) 0)
        (max (min (fromEnd R.length «end») R.length) 0)) := by
  by_cases hnil : R = []
  · subst hnil
    simp [sub,runeSlice]
  have hne : encode R ≠ [] := fun h => hnil ((encode_eq_nil R).mp h)
  unfold sub
  rw [if_neg hne,runeCount_encode]
  dsimp only
  -- the two `int` additions of `sub` do not wrap
  have hend : (if «end» < 0 then wrap («end» + R.length) else «end») = fromEnd R.length «end» := by
    unfold fromEnd
    split_ifs with h
    · exact wrap_add_length he h hR
    · rfl
  have hstart : (if start < 0 then wrap (start + R.length) else start) = fromEnd R.length start := by
    unfold fromEnd
    split_ifs with h
    · exact wrap_add_length hs h hR
    · rfl
  rw [hend,hstart]
  generalize fromEnd R.length «end» = e
  generalize fromEnd R.length start = a
  have hb : (if e > R.length then (R.length : Int) else e) = min e R.length := by
    split_ifs <;> omega
  rw [hb]
  by_cases hgt : a > min e R.length
  · -- the start is past the end: nothing is cut
    rw [if_pos hgt]
    unfold runeSlice
    rw [List.drop_eq_nil_of_le (by rw [List.length_take]; omega)]
    rfl
  · rw [if_neg hgt]
    have ha : (if a < 0 then 0 else a) = max a 0 := by split_ifs <;> omega
    have hb' : (if min e R.length < 0 then 0 else min e R.length) = max (min e R.length) 0 := by
      split_ifs <;> omega
    rw [ha,hb']
    split_ifs with hfull
    · -- the whole string is returned as it is
      obtain ⟨ha0,hbn⟩ := hfull
      unfold runeSlice
      rw [ha0,hbn,Int.toNat_natCast,List.take_length,Int.toNat_zero,List.drop_zero]
    · rw [runes_encode,collect_eq,Int.natCast_zero,Int.sub_zero,Int.sub_zero]
      rfl

theorem subStart_encode (hR : R.length < 2 ^ 63) {start : Int} (hs : -2 ^ 63 ≤ start) :
    SubStart (encode R) start = Sub (encode R) start R.length := by
  unfold SubStart Sub
  rw [sub_encode R hR hs (by unfold MaxInt; omega),sub_encode R hR hs (by omega)]
  congr 3
  unfold fromEnd MaxInt
  split_ifs <;> omega

theorem rotate_encode (hR : R.length < 2 ^ 63) (shift : Int) :
    Rotate (encode R) shift = encode (R.rotate (R.length - (shift % R.length).toNat)) := by
  by_cases hnil : R = []
  · subst hnil
    simp [Rotate,show runeCount [] = 0 from runeCount_encode []]
  have hn : 0 < R.length := List.length_pos_iff.mpr hnil
  have hzero : ∀ {k : Int}, k % R.length = 0 →
      encode R = encode (R.rotate (R.length - (k % R.length).toNat)) := by
    intro k hk
    rw [hk,Int.toNat_zero,Nat.sub_zero,List.rotate_length]
  unfold Rotate
  by_cases h0 : shift = 0
  · rw [if_pos h0]
    exact hzero (by rw [h0]; rfl)
  rw [if_neg h0,runeCount_encode,if_neg (by omega)]
  dsimp only
  by_cases hm : shift.tmod R.length = 0
  · rw [if_pos hm]
    exact hzero (Int.emod_eq_zero_of_dvd (Int.dvd_of_tmod_eq_zero hm))
  rw [if_neg hm]
  have hlt := Int.tmod_lt_of_pos shift (show (0 : Int) < R.length by omega)
  have hgt := Int.lt_tmod_of_pos shift (show (0 : Int) < R.length by omega)
  rw [wrap_of_lt (by omega) (by omega)]
  unfold SubStart Sub
  rw [sub_encode R hR (by omega) (by unfold MaxInt; omega),sub_encode R hR (by omega) (by omega),
    ← encode_append]
  have hfull : max (min (fromEnd R.length MaxInt) R.length) 0 = R.length := by
    unfold fromEnd MaxInt
    split_ifs <;> omega
  have hzero : max (fromEnd R.length 0) 0 = 0 := by
    unfold fromEnd
    simp
  rw [hfull,hzero]
  obtain ⟨j,hj,hcut,hcut',hrot⟩ : ∃ j : Nat, j ≤ R.length ∧
      max (fromEnd R.length (-shift.tmod R.length)) 0 = j ∧
      max (min (fromEnd R.length (-shift.tmod R.length)) R.length) 0 = j ∧
      R.length - (shift % R.length).toNat = j := by
    have hndvd : ¬(R.length : Int) ∣ shift := fun h => hm (Int.tmod_eq_zero_of_dvd h)
    have hmod := @Int.emod_eq_tmod shift R.length
    unfold fromEnd
    by_cases hs : 0 ≤ shift
    · -- a right shift by `t`: the cut is `n - t`
      have := Int.tmod_nonneg (R.length : Int) hs
      rw [if_pos (Or.inl hs)] at hmod
      exact ⟨R.length - (shift.tmod R.length).toNat,by omega,by rw [if_pos (by omega)]; omega,
        by rw [if_pos (by omega)]; omega,by omega⟩
    · -- a left shift by `t`: the cut is `t`
      have := Int.tmod_nonneg (R.length : Int) (show 0 ≤ -shift by omega)
      rw [Int.neg_tmod] at this
      rw [if_neg (by simp [hs,hndvd]),Int.natAbs_natCast] at hmod
      exact ⟨(-shift.tmod R.length).toNat,by omega,by rw [if_neg (by omega)]; omega,
        by rw [if_neg (by omega)]; omega,by omega⟩
  rw [hcut,hcut',hrot]
  unfold runeSlice
  rw [Int.toNat_natCast,Int.toNat_natCast,List.take_length,Int.toNat_zero,List.drop_zero,
    List.rotate_eq_drop_append_take hj]

theorem rotate_rotate_neg (hR : R.length < 2 ^ 63) (k : Int) :
    Rotate (Rotate (encode R) k) (-k) = encode R := by
  by_cases hnil : R = []
  · subst hnil
    simp [Rotate,show runeCount [] = 0 from runeCount_encode []]
  have hn : (0 : Int) < R.length := by have := List.length_pos_iff.mpr hnil; omega
  rw [rotate_encode R hR,rotate_encode _ (by rw [List.length_rotate]; exact hR),List.length_rotate,
    List.rotate_rotate]
  have hx := Int.emod_nonneg k (show (R.length : Int) ≠ 0 by omega)
  have hy := Int.emod_nonneg (-k) (show (R.length : Int) ≠ 0 by omega)
  have hx' := Int.emod_lt_of_pos k hn
  have hy' := Int.emod_lt_of_pos (-k) hn
  obtain ⟨q,hq⟩ : (R.length : Int) ∣ k % R.length + -k % R.length := by
    apply Int.dvd_of_emod_eq_zero
    rw [← Int.add_emod,Int.add_right_neg,Int.zero_emod]
  have hq01 : q = 0 ∨ q = 1 := by
    rcases Int.lt_or_le q 2 with hlt | hge
    · rcases Int.lt_or_le q 0 with hneg | hnn
      · have := Int.mul_le_mul_of_nonneg_left (show q ≤ -1 by omega) (Int.le_of_lt hn)
        omega
      · omega
    · have := Int.mul_le_mul_of_nonneg_left hge (Int.le_of_lt hn)
      omega
  have hsum : (R.length - (k % R.length).toNat) + (R.length - (-k % R.length).toNat) =
      R.length * (if q = 0 then 2 else 1) := by
    rcases hq01 with rfl | rfl
    · rw [if_pos rfl]
      omega
    · rw [if_neg (by decide)]
      omega
  rw [hsum,List.rotate_length_mul]

end Valid

/-- Go's `-k` for `k = math.MinInt` is `math.MinInt` again: rotating "abc" by it twice does
not give "abc" back. -/
theorem rotate_round_trip_minInt :
    Rotate (Rotate (encode ['a','b','c']) (-2 ^ 63)) (wrap (-(-2 ^ 63))) ≠ encode ['a','b','c'] := by
  rw [show wrap (-(-2 ^ 63)) = -2 ^ 63 by decide,rotate_encode _ (by decide),
    rotate_encode _ (by rw [List.length_rotate]; decide)]
  intro h
  have := encode_injective h
  revert this
  decide

/-- The laws of `Sub`, `SubStart` and `Rotate` on a valid string of `n` runes, for every
`int` index and shift, and the round trip of `Rotate` by `k` and `-k` for every `k` whose
negation is an `int`. -/
theorem stringx_sub_rotate (R : List Char) (hR : R.length < 2 ^ 63) :
    (∀ start «end» : Int, -2 ^ 63 ≤ start → start < 2 ^ 63 → -2 ^ 63 ≤ «end» → «end» < 2 ^ 63 →
      Sub (encode R) start «end» =
        encode (runeSlice R (max (fromEnd R.length start) 0)
          (max (min (fromEnd R.length «end») R.length) 0))) ∧
    (∀ start : Int, -2 ^ 63 ≤ start → start < 2 ^ 63 →
      SubStart (encode R) start = Sub (encode R) start R.length) ∧
    (∀ shift : Int, -2 ^ 63 ≤ shift → shift < 2 ^ 63 →
      Rotate (encode R) shift = encode (R.rotate (R.length - (shift % R.length).toNat))) ∧
    (∀ k : Int, -2 ^ 63 < k → k < 2 ^ 63 → Rotate (Rotate (encode R) k) (wrap (-k)) = encode R) := by
  refine ⟨fun start «end» hs _ he _ => sub_encode R hR hs he,fun start hs _ => subStart_encode R hR hs,
    fun shift _ _ => rotate_encode R hR shift,fun k hlo hhi => ?_⟩
  rw [wrap_of_lt (by omega) (by omega)]
  exact rotate_rotate_neg R hR k

/-- A three-rune string, with indices and shifts at both ends of the `int`s. -/
theorem stringx_sub_rotate_abc : ['a','b','c'].length < 2 ^ 63 ∧
    Rotate (encode ['a','b','c']) (-2 ^ 63) = encode (['a','b','c'].rotate 2) := by
  refine ⟨by decide,?_⟩
  rw [(stringx_sub_rotate ['a','b','c'] (by decide)).2.2.1 (-2 ^ 63) (by decide) (by decide)]
  decide

/-! ### `Reverse` -/

theorem reverseLoop_zero (src dst : List UInt8) (i : Nat) : reverseLoop src dst i 0 = (dst,none) := by
  rw [reverseLoop,dif_pos rfl]

theorem reverseLoop_step {src dst : List UInt8} {i k : Nat} (hk : k ≠ 0) :
    reverseLoop src dst i k =
      if (decodeLastRune (src.take k)).1 = RuneError then (dst,some .ErrDecodeRune)
      else reverseLoop src (encodeRuneAt dst i (decodeLastRune (src.take k)).1)
        (i + (decodeLastRune (src.take k)).2) (k - (decodeLastRune (src.take k)).2) := by
  rw [reverseLoop,dif_neg hk]
  rfl

theorem length_front_encodeRuneAt {dst : List UInt8} {i : Nat} (h : i ≤ dst.length) (r : Char) :
    (dst.take i ++ String.utf8EncodeChar r).length = i + r.utf8Size := by
  simp only [List.length_append,List.length_take,String.length_utf8EncodeChar]
  omega

theorem take_encodeRuneAt {dst : List UInt8} {i : Nat} {r : Char} (h : i + r.utf8Size ≤ dst.length) :
    (encodeRuneAt dst i r).take (i + r.utf8Size) = dst.take i ++ String.utf8EncodeChar r := by
  unfold encodeRuneAt
  have hlen := length_front_encodeRuneAt (show i ≤ dst.length by omega) r
  rw [List.take_append_of_le_length (by omega),List.take_of_length_le (by omega)]

theorem drop_encodeRuneAt {dst : List UInt8} {i k : Nat} {r : Char} (h : i + r.utf8Size ≤ dst.length)
    (hk : i + r.utf8Size ≤ k) : (encodeRuneAt dst i r).drop k = dst.drop k := by
  unfold encodeRuneAt
  have hlen := length_front_encodeRuneAt (show i ≤ dst.length by omega) r
  rw [List.drop_append,List.drop_eq_nil_of_le (by omega),List.nil_append,hlen,List.drop_drop]
  congr 1
  omega

theorem length_encodeRuneAt {dst : List UInt8} {i : Nat} {r : Char} (h : i + r.utf8Size ≤ dst.length) :
    (encodeRuneAt dst i r).length = dst.length := by
  unfold encodeRuneAt
  simp only [List.length_append,List.length_take,List.length_drop,String.length_utf8EncodeChar]
  omega

/-- The loop over a valid prefix `encode pre` of the source: it fails exactly when a rune of
`pre` is `RuneError`, and otherwise writes `pre` reversed from `i` on. -/
theorem reverseLoop_encode (src : List UInt8) (pre : List Char)
    (hsrc : src.take (encode pre).length = encode pre) (dst : List UInt8) (i : Nat)
    (hlen : i + (encode pre).length ≤ dst.length) :
    (reverseLoop src dst i (encode pre).length).2 =
        (if RuneError ∈ pre then some .ErrDecodeRune else none) ∧
      (RuneError ∉ pre → (reverseLoop src dst i (encode pre).length).1 =
        dst.take i ++ encode pre.reverse ++ dst.drop (i + (encode pre).length)) := by
  induction pre using List.reverseRecOn generalizing dst i with
  | nil =>
    rw [encode_nil,List.length_nil,reverseLoop_zero]
    exact ⟨by simp,fun _ => by simp⟩
  | append_singleton pre c ih =>
    have hk : (encode (pre ++ [c])).length = (encode pre).length + c.utf8Size := by simp
    have hne : (encode (pre ++ [c])).length ≠ 0 := by have := c.utf8Size_pos; omega
    have hdec : decodeLastRune (src.take (encode (pre ++ [c])).length) = (c,c.utf8Size) := by
      rw [hsrc,encode_append,encode_cons,encode_nil,List.append_nil,decodeLastRune_append_encode]
    rw [reverseLoop_step hne,hdec]
    by_cases hc : c = RuneError
    · -- the last rune is `RuneError`: the loop stops
      rw [if_pos hc,if_pos (List.mem_append_right _ (List.mem_singleton.mpr hc.symm))]
      exact ⟨rfl,fun hn => absurd (List.mem_append_right _ (List.mem_singleton.mpr hc.symm)) hn⟩
    · rw [if_neg hc]
      dsimp only
      have hsrc' : src.take (encode pre).length = encode pre := by
        rw [show (encode pre).length = min (encode pre).length (encode (pre ++ [c])).length by omega,
          ← List.take_take,hsrc,encode_append,List.take_left]
      have hlen' : i + c.utf8Size + (encode pre).length ≤ (encodeRuneAt dst i c).length := by
        rw [length_encodeRuneAt (by omega)]
        omega
      rw [show (encode (pre ++ [c])).length - c.utf8Size = (encode pre).length by omega]
      obtain ⟨ih₁,ih₂⟩ := ih hsrc' (encodeRuneAt dst i c) (i + c.utf8Size) hlen'
      have hmem : RuneError ∈ pre ++ [c] ↔ RuneError ∈ pre := by
        simp only [List.mem_append,List.mem_singleton]
        exact ⟨fun h => h.resolve_right (fun he => hc he.symm),Or.inl⟩
      refine ⟨by rw [ih₁,if_congr hmem rfl rfl],fun hn => ?_⟩
      rw [ih₂ (fun h => hn (hmem.mpr h)),take_encodeRuneAt (by omega),
        drop_encodeRuneAt (by omega) (by omega),List.reverse_append,List.reverse_singleton,
        List.singleton_append,encode_cons,hk]
      simp only [List.append_assoc]
      rw [show i + c.utf8Size + (encode pre).length = i + ((encode pre).length + c.utf8Size) by omega]

/-- `Reverse` of a valid string: `ErrDecodeRune` exactly when one of its runes is U+FFFD, and
otherwise its runes reversed. -/
theorem reverse_encode (cs : List Char) :
    (Reverse (encode cs)).2 = (if RuneError ∈ cs then some .ErrDecodeRune else none) ∧
      (RuneError ∉ cs → (Reverse (encode cs)).1 = encode cs.reverse) := by
  unfold Reverse
  by_cases hnil : encode cs = []
  · have hcs := (encode_eq_nil cs).mp hnil
    subst hcs
    simp
  rw [if_neg hnil]
  obtain ⟨h₁,h₂⟩ := reverseLoop_encode (encode cs) cs (List.take_length)
    (List.replicate (encode cs).length 0) 0 (by simp)
  refine ⟨h₁,fun hn => ?_⟩
  rw [h₂ hn,List.take_zero,List.nil_append,Nat.zero_add,List.drop_eq_nil_of_le (by simp),
    List.append_nil]

theorem reverseLoop_valid (src : List UInt8) :
    ∀ (k : Nat) (dst : List UInt8) (i : Nat), k ≤ src.length →
      (reverseLoop src dst i k).2 = none → Valid (src.take k) := by
  intro k
  induction k using Nat.strongRecOn with
  | ind k ih =>
    intro dst i hk hok
    by_cases h0 : k = 0
    · subst h0
      exact ⟨[],by simp⟩
    rw [reverseLoop_step h0] at hok
    by_cases hr : (decodeLastRune (src.take k)).1 = RuneError
    · rw [if_pos hr] at hok
      cases hok
    rw [if_neg hr] at hok
    have hne : src.take k ≠ [] := by
      intro hnil
      apply hr
      rw [hnil]
      rfl
    rcases decodeLastRune_cases hne with herr | ⟨pre,c,hpre,hdec⟩
    · rw [herr] at hr
      exact absurd rfl hr
    · rw [hdec] at hok
      have hlen : (src.take k).length = k := by rw [List.length_take]; omega
      have hsize : pre.length + c.utf8Size = k := by
        rw [← hlen,hpre,List.length_append,String.length_utf8EncodeChar]
      obtain ⟨cs,hcs⟩ := ih (k - c.utf8Size) (by have := c.utf8Size_pos; omega) _ _ (by omega) hok
      have hpre' : src.take (k - c.utf8Size) = pre := by
        rw [show k - c.utf8Size = min (k - c.utf8Size) k by omega,← List.take_take,hpre,
          show k - c.utf8Size = pre.length by omega,List.take_left]
      refine ⟨cs ++ [c],?_⟩
      rw [hpre,← hpre',hcs]
      simp

theorem reverse_invalid {s : List UInt8} (h : ¬Valid s) : (Reverse s).2 = some .ErrDecodeRune := by
  unfold Reverse
  by_cases hnil : s = []
  · exact absurd ⟨[],by rw [hnil]; rfl⟩ h
  rw [if_neg hnil]
  cases hr : (reverseLoop s (List.replicate s.length 0) 0 s.length).2 with
  | some e => cases e; rfl
  | none =>
    have := reverseLoop_valid s s.length _ 0 (Nat.le_refl _) hr
    rw [List.take_length] at this
    exact absurd this h

/-- `Reverse` refuses every valid string that holds U+FFFD: `DecodeLastRune` answers
`RuneError` for it, and the loop takes that for a decoding failure. A valid string without it
is reversed rune by rune, and an invalid one is refused. -/
theorem reverse_rejects_runeError (cs : List Char) (h : RuneError ∈ cs) :
    (Reverse (encode cs)).2 = some .ErrDecodeRune ∧
      (∀ cs' : List Char, RuneError ∉ cs' →
        (Reverse (encode cs')).1 = encode cs'.reverse ∧ (Reverse (encode cs')).2 = none) ∧
      ∀ s : List UInt8, ¬Valid s → (Reverse s).2 = some .ErrDecodeRune := by
  refine ⟨by rw [(reverse_encode cs).1,if_pos h],fun cs' hn => ?_,fun _ => reverse_invalid⟩
  exact ⟨(reverse_encode cs').2 hn,by rw [(reverse_encode cs').1,if_neg hn]⟩

/-- The string of U+FFFD alone. -/
theorem reverse_rejects_runeError_fffd :
    RuneError ∈ [RuneError] ∧ (Reverse (encode [RuneError])).2 = some .ErrDecodeRune ∧
      (∀ cs' : List Char, RuneError ∉ cs' →
        (Reverse (encode cs')).1 = encode cs'.reverse ∧ (Reverse (encode cs')).2 = none) ∧
      ∀ s : List UInt8, ¬Valid s → (Reverse s).2 = some .ErrDecodeRune :=
  ⟨List.mem_singleton_self _,reverse_rejects_runeError _ (List.mem_singleton_self _)⟩

end Gkit.Stringx
