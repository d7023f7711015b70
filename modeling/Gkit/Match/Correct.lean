import Gkit.Match.Match
import Gkit.Library.Glob

/-!
What the matcher decides. On valid strings both of its paths decide `Glob.Produces` with '*'
and '?' as the wildcards: `deepMatchRune` reading a rune from each side at every step, and
`deepMatch` reading a byte from each while both are ASCII and handing the rest to
`deepMatchRune` when one is not. Each loop is proved by induction on the pattern's runes, given
its entry function on every shorter pair of strings; the entry functions then follow by strong
induction on the number of runes.
-/

namespace Gkit.Match

open GoUtf8

theorem star_ne_any : ('*' : Char) ≠ '?' := by decide

/-! ### Reading valid strings -/

theorem gt_7f_iff (b : UInt8) : b > 0x7f ↔ RuneSelf ≤ b.toNat := by
  rw [gt_iff_lt,UInt8.lt_iff_toNat_lt]
  unfold RuneSelf
  show 127 < b.toNat ↔ 128 ≤ b.toNat
  omega

@[simp] theorem readRune_nil : readRune [] = (RuneError,0) := rfl

theorem readRune_encode_cons (c : Char) (s : List Char) :
    readRune (encode (c :: s)) = (c,c.utf8Size) := by
  rw [encode_cons]
  rcases utf8EncodeChar_head c with ⟨b,henc,hb,hc⟩ | ⟨b,tail,henc,hb,-⟩
  · have h1 : c.utf8Size = 1 := by rw [← String.length_utf8EncodeChar,henc]; rfl
    rw [henc,List.singleton_append,readRune,if_neg (by rw [gt_7f_iff]; omega),hc,h1]
  · rw [henc,List.cons_append,readRune,if_pos ((gt_7f_iff b).mpr hb),← List.cons_append,← henc,
      decodeRune_encode_append]

theorem drop_encode_cons (c : Char) (s : List Char) :
    (encode (c :: s)).drop c.utf8Size = encode s := by
  rw [encode_cons,← String.length_utf8EncodeChar,List.drop_left]

theorem encode_cons_ascii {c : Char} (h : c.utf8Size = 1) (s : List Char) :
    encode (c :: s) = c.toUInt8 :: encode s := by
  rw [encode_cons,String.utf8EncodeChar_eq_singleton h]
  rfl

theorem not_gt_7f_of_ascii {c : Char} (h : c.utf8Size = 1) : ¬c.toUInt8 > 0x7f := by
  rw [gt_7f_iff]
  have := toUInt8_lt_runeSelf h
  exact Nat.not_le_of_lt this

theorem encode_cons_lead {c : Char} (h : c.utf8Size ≠ 1) (s : List Char) :
    ∃ b tail, encode (c :: s) = b :: tail ∧ b > 0x7f := by
  rcases utf8EncodeChar_head c with ⟨b,henc,-,-⟩ | ⟨b,tail,henc,hb,-⟩
  · exact absurd (by rw [← String.length_utf8EncodeChar,henc]; rfl) h
  · exact ⟨b,tail ++ encode s,by rw [encode_cons,henc,List.cons_append],(gt_7f_iff b).mpr hb⟩

theorem toUInt8_eq_iff {c d : Char} (hc : c.utf8Size = 1) (hd : d.utf8Size = 1) :
    c.toUInt8 = d.toUInt8 ↔ c = d := by
  constructor
  · intro h
    apply utf8EncodeChar_inj
    rw [String.utf8EncodeChar_eq_singleton hc,String.utf8EncodeChar_eq_singleton hd]
    exact congrArg (fun b => [b]) h
  · rintro rfl
    rfl

theorem encode_eq_star_iff (p : List Char) : encode p = ['*'.toUInt8] ↔ p = ['*'] := by
  constructor
  · intro h
    cases p with
    | nil => cases h
    | cons c p =>
      rw [encode_cons,List.append_eq_singleton_iff] at h
      rcases h with ⟨hc,-⟩ | ⟨hc,hp⟩
      · exact absurd hc (utf8EncodeChar_ne_nil c)
      · have hstar : String.utf8EncodeChar '*' = ['*'.toUInt8] := rfl
        rw [utf8EncodeChar_inj (hc.trans hstar.symm),(encode_eq_nil p).mp hp]
  · rintro rfl
    rfl

/-! ### Runs of stars -/

theorem collapseStars_cons_of_ne (b : UInt8) (l : List UInt8)
    (h : b ≠ '*'.toUInt8 ∨ l.head? ≠ some '*'.toUInt8) : collapseStars (b :: l) = b :: l := by
  cases l with
  | nil => rfl
  | cons b₁ l =>
    rw [collapseStars,if_neg]
    rintro ⟨rfl,rfl⟩
    rcases h with h | h
    · exact h rfl
    · exact h rfl

theorem ne_toUInt8_of_mem {c d : Char} (hd : d.utf8Size = 1) (hcd : c ≠ d) {b : UInt8}
    (hb : b ∈ String.utf8EncodeChar c) : b ≠ d.toUInt8 := by
  rintro rfl
  have hofNat := (utf8EncodeChar_of_mem_lt hb (toUInt8_lt_runeSelf hd)).2
  exact hcd (hofNat.symm.trans (ofNat_toUInt8 hd))

theorem head_ne_star {c : Char} (hc : c ≠ '*') {b : UInt8} {tail : List UInt8}
    (h : String.utf8EncodeChar c = b :: tail) : b ≠ '*'.toUInt8 :=
  ne_toUInt8_of_mem (by decide) hc (by rw [h]; exact List.mem_cons_self)

/-- On a valid pattern the collapse drops stars from runs of them, which the spec does not
see. -/
theorem collapseStars_encode (p : List Char) :
    ∃ q, collapseStars (encode p) = encode q ∧ q.length ≤ p.length ∧
      ∀ s, Glob.Produces '*' '?' q s ↔ Glob.Produces '*' '?' p s := by
  induction p with
  | nil => exact ⟨[],rfl,Nat.le_refl _,fun _ => Iff.rfl⟩
  | cons c r ih =>
    have hstar : ∀ l, encode ('*' :: l) = '*'.toUInt8 :: encode l :=
      encode_cons_ascii (by decide)
    by_cases hss : c = '*' ∧ r.head? = some '*'
    · -- a run of two stars: the first goes
      obtain ⟨rfl,hr⟩ := hss
      obtain ⟨r',rfl⟩ : ∃ r', r = '*' :: r' := by
        cases r with
        | nil => cases hr
        | cons d r' => exact ⟨r',by rw [Option.some.inj hr]⟩
      obtain ⟨q,hq,hlen,hiff⟩ := ih
      refine ⟨q,?_,by rw [List.length_cons]; omega,
        fun s => (hiff s).trans (Glob.Produces.star_star star_ne_any).symm⟩
      rw [hstar,hstar,collapseStars,if_pos ⟨rfl,rfl⟩,← hstar,hq]
    · refine ⟨c :: r,?_,Nat.le_refl _,fun _ => Iff.rfl⟩
      by_cases hc : c = '*'
      · -- a lone star: the next rune is not one
        subst hc
        rw [hstar]
        apply collapseStars_cons_of_ne _ _ (Or.inr _)
        cases r with
        | nil => exact fun h => nomatch h
        | cons d r' =>
          have hd : d ≠ '*' := fun hd => hss ⟨rfl,by rw [hd]; rfl⟩
          obtain ⟨b,tail,henc⟩ := List.exists_cons_of_ne_nil (utf8EncodeChar_ne_nil d)
          rw [encode_cons,henc,List.cons_append,List.head?_cons]
          exact fun h => head_ne_star hd henc (Option.some.inj h)
      · obtain ⟨b,tail,henc⟩ := List.exists_cons_of_ne_nil (utf8EncodeChar_ne_nil c)
        rw [encode_cons,henc,List.cons_append]
        exact collapseStars_cons_of_ne _ _ (Or.inl (head_ne_star hc henc))

/-! ### The rune path -/

theorem deepMatchRuneLoop_nil (s : List Char) :
    deepMatchRuneLoop (encode s) [] = true ↔ s = [] := by
  rw [deepMatchRuneLoop,readRune_nil,dif_neg (Nat.lt_irrefl 0)]
  cases s with
  | nil => decide
  | cons c s =>
    rw [readRune_encode_cons]
    simp [Nat.pos_iff_ne_zero.mp c.utf8Size_pos]

theorem deepMatchRuneLoop_star (s p : List Char) :
    deepMatchRuneLoop (encode s) (encode ('*' :: p)) =
      (deepMatchRune (encode s) (encode p) ||
        match s with
        | [] => false
        | _ :: s' => deepMatchRune (encode s') (encode ('*' :: p))) := by
  rw [deepMatchRuneLoop,readRune_encode_cons,dif_pos (Char.utf8Size_pos _),if_pos rfl,
    drop_encode_cons]
  cases s with
  | nil => rw [encode_nil,readRune_nil,dif_neg (Nat.lt_irrefl 0)]
  | cons d s' => rw [readRune_encode_cons,dif_pos d.utf8Size_pos,drop_encode_cons]

theorem deepMatchRuneLoop_any (s p : List Char) :
    deepMatchRuneLoop (encode s) (encode ('?' :: p)) =
      match s with
      | [] => false
      | _ :: s' => deepMatchRuneLoop (encode s') (encode p) := by
  rw [deepMatchRuneLoop,readRune_encode_cons,dif_pos (Char.utf8Size_pos _),
    if_neg (show ('?' : Char) ≠ '*' by decide),if_pos rfl,drop_encode_cons]
  cases s with
  | nil => rw [encode_nil,readRune_nil,if_pos rfl]
  | cons d s' =>
    rw [readRune_encode_cons,if_neg (Nat.pos_iff_ne_zero.mp d.utf8Size_pos),drop_encode_cons]

theorem deepMatchRuneLoop_literal {c : Char} (hs : c ≠ '*') (ha : c ≠ '?') (s p : List Char) :
    deepMatchRuneLoop (encode s) (encode (c :: p)) =
      match s with
      | [] => false
      | d :: s' => if d ≠ c then false else deepMatchRuneLoop (encode s') (encode p) := by
  rw [deepMatchRuneLoop,readRune_encode_cons,dif_pos c.utf8Size_pos,if_neg hs,if_neg ha,
    drop_encode_cons]
  cases s with
  | nil => rw [encode_nil,readRune_nil,if_pos rfl]
  | cons d s' =>
    rw [readRune_encode_cons,if_neg (Nat.pos_iff_ne_zero.mp d.utf8Size_pos),drop_encode_cons]

/-- The rune loop decides the spec, given that `deepMatchRune` does on every shorter pair. -/
theorem deepMatchRuneLoop_iff_of {n : Nat}
    (ih : ∀ s p : List Char, s.length + p.length < n →
      (deepMatchRune (encode s) (encode p) = true ↔ Glob.Produces '*' '?' p s)) (p : List Char) :
    ∀ s : List Char, s.length + p.length ≤ n →
      (deepMatchRuneLoop (encode s) (encode p) = true ↔ Glob.Produces '*' '?' p s) := by
  induction p with
  | nil =>
    intro s _
    rw [encode_nil,deepMatchRuneLoop_nil,Glob.Produces.nil_iff]
  | cons c p ihp =>
    intro s hn
    rw [List.length_cons] at hn
    by_cases hs : c = '*'
    · -- a star: as nothing, or as one more rune of `s`
      subst hs
      rw [deepMatchRuneLoop_star,Bool.or_eq_true,ih s p (by omega)]
      cases s with
      | nil =>
        rw [Glob.Produces.star_nil_iff star_ne_any]
        simp
      | cons d s' =>
        rw [List.length_cons] at hn
        rw [Glob.Produces.star_cons_iff star_ne_any,ih s' ('*' :: p) (by rw [List.length_cons]; omega)]
    · by_cases ha : c = '?'
      · subst ha
        rw [deepMatchRuneLoop_any]
        cases s with
        | nil => exact ⟨nofun,fun h => absurd h (Glob.Produces.any_nil star_ne_any)⟩
        | cons d s' =>
          rw [Glob.Produces.any_cons_iff star_ne_any]
          exact ihp s' (by rw [List.length_cons] at hn; omega)
      · rw [deepMatchRuneLoop_literal hs ha]
        cases s with
        | nil => exact ⟨nofun,fun h => absurd h (Glob.Produces.literal_nil hs ha)⟩
        | cons d s' =>
          rw [Glob.Produces.literal_cons_iff hs ha]
          dsimp only
          by_cases hd : d = c
          · rw [if_neg (not_not.mpr hd),ihp s' (by rw [List.length_cons] at hn; omega)]
            exact ⟨fun h => ⟨hd,h⟩,fun h => h.2⟩
          · rw [if_pos hd]
            exact ⟨nofun,fun h => absurd h.1 hd⟩

theorem deepMatchRune_iff (s p : List Char) :
    deepMatchRune (encode s) (encode p) = true ↔ Glob.Produces '*' '?' p s := by
  suffices h : ∀ n, ∀ s p : List Char, s.length + p.length = n →
      (deepMatchRune (encode s) (encode p) = true ↔ Glob.Produces '*' '?' p s) from h _ s p rfl
  intro n
  induction n using Nat.strongRecOn with
  | ind n ih =>
    intro s p hn
    rw [deepMatchRune]
    by_cases hstar : encode p = ['*'.toUInt8]
    · rw [if_pos hstar,(encode_eq_star_iff p).mp hstar]
      exact ⟨fun _ => Glob.Produces.star_single s,fun _ => rfl⟩
    · -- after the collapse the loop runs on a pattern no longer than `p`
      rw [if_neg hstar]
      obtain ⟨q,hq,hlen,hiff⟩ := collapseStars_encode p
      rw [hq,← hiff s]
      exact deepMatchRuneLoop_iff_of (fun s' p' h => ih _ h s' p' rfl) q s (by omega)

/-! ### The byte path -/

theorem deepMatchLoop_of_lead {str : List UInt8} {p₀ : UInt8} (ps : List UInt8) (h : p₀ > 0x7f) :
    deepMatchLoop str (p₀ :: ps) = deepMatchRune str (p₀ :: ps) := by
  cases str with
  | nil => rw [deepMatchLoop.eq_2,if_pos h]
  | cons b rest => rw [deepMatchLoop.eq_3,if_pos h]

theorem deepMatchLoop_of_str_lead {s₀ p₀ : UInt8} (ss ps : List UInt8) (hp : ¬p₀ > 0x7f)
    (hs : s₀ > 0x7f) : deepMatchLoop (s₀ :: ss) (p₀ :: ps) = deepMatchRune (s₀ :: ss) (p₀ :: ps) := by
  rw [deepMatchLoop.eq_3,if_neg hp,if_pos (by simp [hs])]

theorem deepMatchLoop_star_nil (ps : List UInt8) :
    deepMatchLoop [] ('*'.toUInt8 :: ps) = deepMatch [] ps := by
  rw [deepMatchLoop.eq_2,if_neg (by decide),if_neg (by decide),if_pos rfl,
    dif_neg (show ¬([] : List UInt8).length > 0 from Nat.lt_irrefl 0),Bool.or_false]

theorem deepMatchLoop_star_cons {s₀ : UInt8} (ss ps : List UInt8) (hs : ¬s₀ > 0x7f) :
    deepMatchLoop (s₀ :: ss) ('*'.toUInt8 :: ps) =
      (deepMatch (s₀ :: ss) ps || deepMatch ss ('*'.toUInt8 :: ps)) := by
  rw [deepMatchLoop.eq_3,if_neg (by decide),if_neg (by simp [hs]),if_pos rfl,
    dif_pos (show (s₀ :: ss).length > 0 from Nat.succ_pos _)]
  rfl

theorem deepMatchLoop_any_nil (ps : List UInt8) : deepMatchLoop [] ('?'.toUInt8 :: ps) = false := by
  rw [deepMatchLoop.eq_2,if_neg (by decide),if_neg (by decide),if_neg (by decide),if_pos rfl]

theorem deepMatchLoop_any_cons {s₀ : UInt8} (ss ps : List UInt8) (hs : ¬s₀ > 0x7f) :
    deepMatchLoop (s₀ :: ss) ('?'.toUInt8 :: ps) = deepMatchLoop ss ps := by
  rw [deepMatchLoop.eq_3,if_neg (by decide),if_neg (by simp [hs]),if_neg (by decide),if_pos rfl]

theorem deepMatchLoop_literal_nil {p₀ : UInt8} (ps : List UInt8) (h7f : ¬p₀ > 0x7f)
    (hs : p₀ ≠ '*'.toUInt8) (ha : p₀ ≠ '?'.toUInt8) : deepMatchLoop [] (p₀ :: ps) = false := by
  rw [deepMatchLoop.eq_2,if_neg h7f,if_neg (by decide),if_neg hs,if_neg ha]

theorem deepMatchLoop_literal_cons {s₀ p₀ : UInt8} (ss ps : List UInt8) (h7f : ¬p₀ > 0x7f)
    (hs : p₀ ≠ '*'.toUInt8) (ha : p₀ ≠ '?'.toUInt8) (hs₀ : ¬s₀ > 0x7f) :
    deepMatchLoop (s₀ :: ss) (p₀ :: ps) = if s₀ ≠ p₀ then false else deepMatchLoop ss ps := by
  rw [deepMatchLoop.eq_3,if_neg h7f,if_neg (by simp [hs₀]),if_neg hs,if_neg ha]

section BytePath

variable {n : Nat}
  (ih : ∀ s p : List Char, s.length + p.length < n →
    (deepMatch (encode s) (encode p) = true ↔ Glob.Produces '*' '?' p s))
include ih

/-- One step of the byte loop: the pattern's next rune is ASCII, and so is the string's, if it
has one. -/
theorem deepMatchLoop_ascii_iff_of {p : List Char}
    (ihp : ∀ s : List Char, s.length + p.length ≤ n →
      (deepMatchLoop (encode s) (encode p) = true ↔ Glob.Produces '*' '?' p s))
    {c : Char} (hc : c.utf8Size = 1) (s : List Char) (hs : ∀ d s', s = d :: s' → d.utf8Size = 1)
    (hn : s.length + (p.length + 1) ≤ n) :
    deepMatchLoop (encode s) (encode (c :: p)) = true ↔ Glob.Produces '*' '?' (c :: p) s := by
  rw [encode_cons_ascii hc]
  by_cases hstar : c = '*'
  · -- a star: as nothing, or as one more byte of `s`
    subst hstar
    cases s with
    | nil =>
      rw [encode_nil,deepMatchLoop_star_nil,Glob.Produces.star_nil_iff star_ne_any,← encode_nil,
        ih [] p (by rw [List.length_nil]; omega)]
    | cons d s' =>
      have hd := hs d s' rfl
      rw [List.length_cons] at hn
      rw [encode_cons_ascii hd,deepMatchLoop_star_cons _ _ (not_gt_7f_of_ascii hd),
        ← encode_cons_ascii hd,← encode_cons_ascii hc,Bool.or_eq_true,
        ih (d :: s') p (by rw [List.length_cons]; omega),
        ih s' ('*' :: p) (by rw [List.length_cons]; omega),Glob.Produces.star_cons_iff star_ne_any]
  have h7f := not_gt_7f_of_ascii hc
  by_cases hany : c = '?'
  · subst hany
    cases s with
    | nil =>
      rw [encode_nil,deepMatchLoop_any_nil]
      exact ⟨nofun,fun h => absurd h (Glob.Produces.any_nil star_ne_any)⟩
    | cons d s' =>
      have hd := hs d s' rfl
      rw [List.length_cons] at hn
      rw [encode_cons_ascii hd,deepMatchLoop_any_cons _ _ (not_gt_7f_of_ascii hd),
        Glob.Produces.any_cons_iff star_ne_any]
      exact ihp s' (by omega)
  have hs₁ : c.toUInt8 ≠ '*'.toUInt8 := fun h => hstar ((toUInt8_eq_iff hc (by decide)).mp h)
  have ha₁ : c.toUInt8 ≠ '?'.toUInt8 := fun h => hany ((toUInt8_eq_iff hc (by decide)).mp h)
  cases s with
  | nil =>
    rw [encode_nil,deepMatchLoop_literal_nil _ h7f hs₁ ha₁]
    exact ⟨nofun,fun h => absurd h (Glob.Produces.literal_nil hstar hany)⟩
  | cons d s' =>
    have hd := hs d s' rfl
    rw [List.length_cons] at hn
    rw [encode_cons_ascii hd,deepMatchLoop_literal_cons _ _ h7f hs₁ ha₁ (not_gt_7f_of_ascii hd),
      Glob.Produces.literal_cons_iff hstar hany]
    by_cases hdc : d = c
    · rw [if_neg (not_not.mpr ((toUInt8_eq_iff hd hc).mpr hdc)),ihp s' (by omega)]
      exact ⟨fun h => ⟨hdc,h⟩,fun h => h.2⟩
    · rw [if_pos (fun h => hdc ((toUInt8_eq_iff hd hc).mp h))]
      exact ⟨nofun,fun h => absurd h.1 hdc⟩

theorem deepMatchLoop_iff_of (p : List Char) :
    ∀ s : List Char, s.length + p.length ≤ n →
      (deepMatchLoop (encode s) (encode p) = true ↔ Glob.Produces '*' '?' p s) := by
  induction p with
  | nil =>
    intro s _
    rw [encode_nil,deepMatchLoop.eq_1,decide_eq_true_iff,List.length_eq_zero_iff,encode_eq_nil,
      Glob.Produces.nil_iff]
  | cons c p ihp =>
    intro s hn
    rw [List.length_cons] at hn
    by_cases hc : c.utf8Size = 1
    · cases s with
      | nil =>
        exact deepMatchLoop_ascii_iff_of ih ihp hc []
          (fun _ _ h => absurd h.symm (List.cons_ne_nil _ _)) hn
      | cons d s' =>
        by_cases hd : d.utf8Size = 1
        · exact deepMatchLoop_ascii_iff_of ih ihp hc (d :: s')
            (fun _ _ h => by obtain ⟨rfl,rfl⟩ := List.cons.inj h; exact hd) hn
        · -- a rune of `s` above ASCII hands over to the rune path
          obtain ⟨b,tail,hb,h7f⟩ := encode_cons_lead hd s'
          rw [encode_cons_ascii hc,hb,deepMatchLoop_of_str_lead _ _ (not_gt_7f_of_ascii hc) h7f,
            ← hb,← encode_cons_ascii hc,deepMatchRune_iff]
    · -- a pattern rune above ASCII hands over to the rune path
      obtain ⟨b,tail,hb,h7f⟩ := encode_cons_lead hc p
      rw [hb,deepMatchLoop_of_lead _ h7f,← hb,deepMatchRune_iff]

end BytePath

theorem deepMatch_iff (s p : List Char) :
    deepMatch (encode s) (encode p) = true ↔ Glob.Produces '*' '?' p s := by
  suffices h : ∀ n, ∀ s p : List Char, s.length + p.length = n →
      (deepMatch (encode s) (encode p) = true ↔ Glob.Produces '*' '?' p s) from h _ s p rfl
  intro n
  induction n using Nat.strongRecOn with
  | ind n ih =>
    intro s p hn
    rw [deepMatch]
    by_cases hstar : encode p = ['*'.toUInt8]
    · rw [if_pos hstar,(encode_eq_star_iff p).mp hstar]
      exact ⟨fun _ => Glob.Produces.star_single s,fun _ => rfl⟩
    · rw [if_neg hstar]
      obtain ⟨q,hq,hlen,hiff⟩ := collapseStars_encode p
      rw [hq,← hiff s]
      exact deepMatchLoop_iff_of (fun s' p' h => ih _ h s' p' rfl) q s (by omega)

/-- `Match` on valid strings decides the glob spec, and its byte path and its rune path agree. -/
theorem match_iff_produces (s p : List Char) :
    (Match (encode s) (encode p) = true ↔ Glob.Produces '*' '?' p s) ∧
      deepMatch (encode s) (encode p) = deepMatchRune (encode s) (encode p) := by
  refine ⟨deepMatch_iff s p,?_⟩
  rw [Bool.eq_iff_iff,deepMatch_iff,deepMatchRune_iff]

end Gkit.Match
