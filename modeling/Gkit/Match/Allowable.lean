import Gkit.Match.Correct

/-!
`Allowable` on a pattern whose runes before the first '*' are literals and '?'s. A literal
copies its bytes to both bounds, and a '?' puts `0` into `min` and the bytes of `MaxRune` into
`max`. Before a '*' the last rune of `max` is raised by one to bound whatever the '*' adds, but
not when that rune is already `MaxRune`: a '?' right before the '*' leaves `max` a proper
prefix of strings that match.
-/

namespace Gkit.Match

open GoUtf8

theorem allowableLoop_append_literal (minB maxB l rest : List UInt8)
    (hl : ∀ b ∈ l, b ≠ '*'.toUInt8 ∧ b ≠ '?'.toUInt8) :
    allowableLoop minB maxB (l ++ rest) = allowableLoop (minB ++ l) (maxB ++ l) rest := by
  induction l generalizing minB maxB with
  | nil => simp
  | cons b l ih =>
    have hb := hl b List.mem_cons_self
    rw [List.cons_append,allowableLoop,if_neg hb.1,if_neg hb.2,
      ih _ _ (fun b' hb' => hl b' (List.mem_cons_of_mem _ hb'))]
    simp

theorem encode_literal_bytes {pre : List Char} (hpre : ∀ c ∈ pre, c ≠ '*' ∧ c ≠ '?') :
    ∀ b ∈ encode pre, b ≠ '*'.toUInt8 ∧ b ≠ '?'.toUInt8 := by
  intro b hb
  obtain ⟨c,hc,hbc⟩ := List.mem_flatMap.mp hb
  exact ⟨ne_toUInt8_of_mem (by decide) (hpre c hc).1 hbc,
    ne_toUInt8_of_mem (by decide) (hpre c hc).2 hbc⟩

theorem produces_literals {pre ps s : List Char} (hpre : ∀ c ∈ pre, c ≠ '*' ∧ c ≠ '?')
    (h : Glob.Produces '*' '?' ps s) : Glob.Produces '*' '?' (pre ++ ps) (pre ++ s) := by
  induction pre with
  | nil => exact h
  | cons c pre ih =>
    have hc := hpre c List.mem_cons_self
    exact .literal hc.1 hc.2 (ih (fun c' hc' => hpre c' (List.mem_cons_of_mem _ hc')))

theorem maxRune_ne_runeError : MaxRune ≠ RuneError := by decide

theorem allowable_literals_any_star {pre : List Char} (hpre : ∀ c ∈ pre, c ≠ '*' ∧ c ≠ '?') :
    (Allowable (encode (pre ++ ['?','*']))).2 = encode pre ++ maxRuneBytes := by
  have hbytes := encode_literal_bytes hpre
  have htail : encode ['?','*'] = ['?'.toUInt8,'*'.toUInt8] := rfl
  have hloop : allowableLoop [] [] (encode (pre ++ ['?','*'])) =
      (encode pre ++ [0],encode pre ++ maxRuneBytes,true) := by
    rw [encode_append,htail,allowableLoop_append_literal _ _ _ _ hbytes,allowableLoop,
      if_neg (by decide),if_pos rfl,allowableLoop,if_pos rfl]
    simp
  obtain ⟨p₀,ps,hpat,hp₀⟩ : ∃ p₀ ps, encode (pre ++ ['?','*']) = p₀ :: ps ∧ p₀ ≠ '*'.toUInt8 := by
    cases pre with
    | nil => exact ⟨_,_,rfl,by decide⟩
    | cons c pre =>
      obtain ⟨b,tail,henc⟩ := List.exists_cons_of_ne_nil (utf8EncodeChar_ne_nil c)
      refine ⟨b,tail ++ encode (pre ++ ['?','*']),?_,?_⟩
      · rw [List.cons_append,encode_cons,henc,List.cons_append]
      · exact (hbytes b (by rw [encode_cons,henc]; exact List.mem_cons_self)).1
  have hlast : decodeLastRune (encode pre ++ maxRuneBytes) = (MaxRune,MaxRune.utf8Size) :=
    decodeLastRune_append_encode _ _
  unfold Allowable
  rw [hpat]
  dsimp only
  rw [if_neg hp₀,← hpat,hloop]
  dsimp only
  rw [if_pos rfl,hlast]
  dsimp only
  rw [if_pos maxRune_ne_runeError,if_neg (Nat.lt_irrefl _)]

/-- Every pattern of literals, a '?' and a '*' matches the literals, `MaxRune` and any one rune
more, and `Allowable` gives a `max` below that string. -/
theorem allowable_max_below_match (pre : List Char) (hpre : ∀ c ∈ pre, c ≠ '*' ∧ c ≠ '?')
    (c : Char) :
    Match (encode (pre ++ [MaxRune,c])) (encode (pre ++ ['?','*'])) = true ∧
      (Allowable (encode (pre ++ ['?','*']))).2 < encode (pre ++ [MaxRune,c]) := by
  constructor
  · -- '?' stands for `MaxRune` and '*' for `c`
    have hspec : Glob.Produces '*' '?' ['?','*'] [MaxRune,c] :=
      .anyOne MaxRune (by simpa using Glob.Produces.starWord [c] .nil)
    exact (deepMatch_iff _ _).mpr (produces_literals hpre hspec)
  · rw [allowable_literals_any_star hpre]
    have hstr : encode (pre ++ [MaxRune,c]) =
        encode pre ++ maxRuneBytes ++ String.utf8EncodeChar c := by
      simp [maxRuneBytes]
    rw [hstr]
    obtain ⟨b,tail,henc⟩ := List.exists_cons_of_ne_nil (utf8EncodeChar_ne_nil c)
    have : encode pre ++ maxRuneBytes ++ [] < encode pre ++ maxRuneBytes ++ b :: tail :=
      List.append_left_lt (List.nil_lt_cons b tail)
    rwa [List.append_nil,← henc] at this

/-- The pattern "a?*" and the string "a\U0010FFFFx". -/
theorem allowable_max_below_match_a :
    (∀ c ∈ ['a'], c ≠ '*' ∧ c ≠ '?') ∧
      Match (encode (['a'] ++ [MaxRune,'x'])) (encode (['a'] ++ ['?','*'])) = true ∧
      (Allowable (encode (['a'] ++ ['?','*']))).2 < encode (['a'] ++ [MaxRune,'x']) := by
  have ha : ∀ c ∈ ['a'], c ≠ '*' ∧ c ≠ '?' := by
    intro c hc
    rw [List.mem_singleton] at hc
    subst hc
    exact ⟨by decide,by decide⟩
  exact ⟨ha,allowable_max_below_match ['a'] ha 'x'⟩

end Gkit.Match
