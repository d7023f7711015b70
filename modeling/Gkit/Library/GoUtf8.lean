import Mathlib

/-!
Go's `unicode/utf8` on byte strings, for shallow models of Go string code. A Go string is its
bytes, and a valid one is the encoding of a list of characters, `encode cs`: what
`string(runes)` and `strings.Builder.WriteRune` produce. `decodeRune` is `utf8.DecodeRune`,
stated through Lean's own UTF-8 decoder: both accept exactly the shortest encodings of Unicode
scalar values (RFC 3629), and Go answers `(RuneError, 1)` for anything else. `decodeLastRune`
follows Go's `utf8.DecodeLastRune`, which looks back for the start of the last rune.
-/

namespace GoUtf8

/-- `utf8.RuneError`, U+FFFD. -/
def RuneError : Char := '�'

def RuneSelf : Nat := 0x80
def UTFMax : Nat := 4

/-- The bytes of a string of runes. -/
def encode (cs : List Char) : List UInt8 := cs.flatMap String.utf8EncodeChar

@[simp] theorem encode_nil : encode [] = [] := rfl

@[simp] theorem encode_cons (c : Char) (cs : List Char) :
    encode (c :: cs) = String.utf8EncodeChar c ++ encode cs := List.flatMap_cons

@[simp] theorem encode_append (cs ds : List Char) : encode (cs ++ ds) = encode cs ++ encode ds :=
  List.flatMap_append

theorem utf8EncodeChar_ne_nil (c : Char) : String.utf8EncodeChar c ≠ [] := by
  intro h
  have := congrArg List.length h
  rw [String.length_utf8EncodeChar] at this
  exact absurd this (Nat.pos_iff_ne_zero.mp c.utf8Size_pos)

/-! ### `DecodeRune` -/

/-- `utf8.DecodeRune`: the rune the bytes start with and its width; `(RuneError, 1)` where
they do not start with a valid encoding, and `(RuneError, 0)` for no bytes. -/
def decodeRune (p : List UInt8) : Char × Nat :=
  match p with
  | [] => (RuneError,0)
  | _ :: _ =>
    match p.toByteArray.utf8DecodeChar? 0 with
    | some c => (c,c.utf8Size)
    | none => (RuneError,1)

theorem decodeRune_encode_append (c : Char) (rest : List UInt8) :
    decodeRune (String.utf8EncodeChar c ++ rest) = (c,c.utf8Size) := by
  obtain ⟨b,bs,hb⟩ := List.exists_cons_of_ne_nil (utf8EncodeChar_ne_nil c)
  have hdec := ByteArray.utf8DecodeChar?_utf8EncodeChar_append (b := rest.toByteArray) (c := c)
  rw [← List.toByteArray_append] at hdec
  rw [hb,List.cons_append] at hdec ⊢
  simp only [decodeRune,hdec]

theorem decodeRune_encodeChar (c : Char) : decodeRune (String.utf8EncodeChar c) = (c,c.utf8Size) := by
  rw [← List.append_nil (String.utf8EncodeChar c),decodeRune_encode_append]

/-- What `DecodeRune` finds at the front of a non-empty string: a valid encoding, or the
error of width one. -/
theorem decodeRune_cases {p : List UInt8} (hp : p ≠ []) :
    decodeRune p = (RuneError,1) ∨
      ∃ c rest, p = String.utf8EncodeChar c ++ rest ∧ decodeRune p = (c,c.utf8Size) := by
  obtain ⟨b,bs,rfl⟩ := List.exists_cons_of_ne_nil hp
  cases hdec : (b :: bs).toByteArray.utf8DecodeChar? 0 with
  | none =>
    left
    simp only [decodeRune,hdec]
  | some c =>
    right
    obtain ⟨l,hl⟩ := ByteArray.exists_of_utf8DecodeChar?_eq_some hdec
    refine ⟨c,l.data.toList,?_,by simp only [decodeRune,hdec]⟩
    have := congrArg (fun a : ByteArray => a.data.toList) hl
    simpa only [List.data_toByteArray,ByteArray.toList_data_append] using this

theorem decodeRune_width_pos {p : List UInt8} (hp : p ≠ []) : 0 < (decodeRune p).2 := by
  rcases decodeRune_cases hp with h | ⟨c,_,_,h⟩ <;> rw [h]
  · exact Nat.one_pos
  · exact c.utf8Size_pos

theorem decodeRune_width_le {p : List UInt8} (hp : p ≠ []) : (decodeRune p).2 ≤ p.length := by
  rcases decodeRune_cases hp with h | ⟨c,rest,hc,h⟩ <;> rw [h]
  · exact List.length_pos_iff.mpr hp
  · rw [hc,List.length_append,String.length_utf8EncodeChar]
    omega

/-! ### `DecodeLastRune` -/

/-- `utf8.RuneStart`: the byte is not a continuation byte. -/
def runeStart (b : UInt8) : Bool := b &&& 0xc0 != 0x80

/-- The loop `for start--; start >= lim; start-- { if RuneStart(p[start]) { break } }` of
`DecodeLastRune`, entered with `start` already stepped back. -/
def scanBack (p : List UInt8) (lim start : Int) : Int :=
  if start < lim then start
  else if runeStart (p[start.toNat]?.getD 0) then start
  else scanBack p lim (start - 1)
termination_by (start + 1 - lim).toNat
decreasing_by omega

/-- `utf8.DecodeLastRune`: the last rune and its width. From the last byte it looks back at
most `UTFMax` bytes for one that starts a rune and decodes from there; the rune must end
the string, or the answer is `(RuneError, 1)`. -/
def decodeLastRune (p : List UInt8) : Char × Nat :=
  let e := p.length
  if e = 0 then (RuneError,0)
  else
    let b := p[e - 1]?.getD 0
    if b.toNat < RuneSelf then (Char.ofNat b.toNat,1)
    else
      let lim : Int := max ((e : Int) - UTFMax) 0
      let start := scanBack p lim ((e : Int) - 2)
      let start := if start < 0 then 0 else start
      let r := decodeRune (p.drop start.toNat)
      if start + r.2 ≠ e then (RuneError,1) else r

theorem forall_uint8 {P : UInt8 → Prop} (h : ∀ n, n < 256 → P (UInt8.ofNat n)) (x : UInt8) :
    P x := by
  have := h x.toNat x.toNat_lt
  rwa [UInt8.ofNat_toNat] at this

-- The bytes of each shape of encoding, checked over the 256 bytes.
set_option maxRecDepth 8000 in
theorem cont_byte (x : UInt8) :
    runeStart (x &&& 0x3f ||| 0x80) = false ∧ RuneSelf ≤ (x &&& 0x3f ||| 0x80).toNat :=
  forall_uint8 (P := fun x => runeStart (x &&& 0x3f ||| 0x80) = false ∧
    RuneSelf ≤ (x &&& 0x3f ||| 0x80).toNat) (by decide) x

set_option maxRecDepth 8000 in
theorem lead_two (x : UInt8) :
    runeStart (x &&& 0x1f ||| 0xc0) = true ∧ RuneSelf ≤ (x &&& 0x1f ||| 0xc0).toNat :=
  forall_uint8 (P := fun x => runeStart (x &&& 0x1f ||| 0xc0) = true ∧
    RuneSelf ≤ (x &&& 0x1f ||| 0xc0).toNat) (by decide) x

set_option maxRecDepth 8000 in
theorem lead_three (x : UInt8) :
    runeStart (x &&& 0x0f ||| 0xe0) = true ∧ RuneSelf ≤ (x &&& 0x0f ||| 0xe0).toNat :=
  forall_uint8 (P := fun x => runeStart (x &&& 0x0f ||| 0xe0) = true ∧
    RuneSelf ≤ (x &&& 0x0f ||| 0xe0).toNat) (by decide) x

set_option maxRecDepth 8000 in
theorem lead_four (x : UInt8) :
    runeStart (x &&& 0x07 ||| 0xf0) = true ∧ RuneSelf ≤ (x &&& 0x07 ||| 0xf0).toNat :=
  forall_uint8 (P := fun x => runeStart (x &&& 0x07 ||| 0xf0) = true ∧
    RuneSelf ≤ (x &&& 0x07 ||| 0xf0).toNat) (by decide) x

/-- An encoding longer than a byte: a start byte, then one to three continuation bytes. -/
theorem utf8EncodeChar_shape {c : Char} (h : 2 ≤ c.utf8Size) :
    ∃ b₀ tail, String.utf8EncodeChar c = b₀ :: tail ∧ runeStart b₀ = true ∧
      RuneSelf ≤ b₀.toNat ∧ 1 ≤ tail.length ∧ tail.length ≤ 3 ∧
      ∀ b ∈ tail, runeStart b = false ∧ RuneSelf ≤ b.toNat := by
  rcases c.utf8Size_eq with h1 | h2 | h3 | h4
  · omega
  · rw [String.utf8EncodeChar_eq_cons_cons h2]
    refine ⟨_,_,rfl,(lead_two _).1,(lead_two _).2,by simp,by simp,?_⟩
    simp only [List.mem_cons,List.not_mem_nil,or_false]
    rintro b rfl
    exact cont_byte _
  · rw [String.utf8EncodeChar_eq_cons_cons_cons h3]
    refine ⟨_,_,rfl,(lead_three _).1,(lead_three _).2,by simp,by simp,?_⟩
    simp only [List.mem_cons,List.not_mem_nil,or_false]
    rintro b (rfl | rfl)
    all_goals exact cont_byte _
  · rw [String.utf8EncodeChar_eq_cons_cons_cons_cons h4]
    refine ⟨_,_,rfl,(lead_four _).1,(lead_four _).2,by simp,by simp,?_⟩
    simp only [List.mem_cons,List.not_mem_nil,or_false]
    rintro b (rfl | rfl | rfl)
    all_goals exact cont_byte _

/-- The scan stops at the first byte from `start` down that starts a rune, when it is
reached before `lim`. -/
theorem scanBack_eq {p : List UInt8} {lim : Int} {s : Nat} (hlim : lim ≤ s)
    (hs : runeStart (p[s]?.getD 0) = true) (k : Nat)
    (hcont : ∀ j, s < j → j ≤ s + k → runeStart (p[j]?.getD 0) = false) :
    scanBack p lim ((s + k : Nat) : Int) = s := by
  induction k with
  | zero =>
    rw [scanBack,if_neg (by omega),Nat.add_zero,Int.toNat_natCast,if_pos hs]
  | succ k ih =>
    rw [scanBack,if_neg (by omega),Int.toNat_natCast,
      if_neg (by rw [hcont (s + (k + 1)) (by omega) (Nat.le_refl _)]; exact Bool.false_ne_true)]
    rw [show ((s + (k + 1) : Nat) : Int) - 1 = ((s + k : Nat) : Int) by omega]
    exact ih (fun j hj hjk => hcont j hj (by omega))

theorem ofNat_toUInt8 {c : Char} (h : c.utf8Size = 1) : Char.ofNat c.val.toUInt8.toNat = c := by
  have hv : c.val.toNat ≤ 127 := by
    have := Char.utf8Size_eq_one_iff.mp h
    rwa [UInt32.le_iff_toNat_le] at this
  have : c.val.toUInt8.toNat = c.toNat := by
    rw [UInt32.toNat_toUInt8]
    exact Nat.mod_eq_of_lt (by show c.val.toNat < 256; omega)
  rw [this,Char.ofNat_toNat]

theorem toUInt8_lt_runeSelf {c : Char} (h : c.utf8Size = 1) : c.val.toUInt8.toNat < RuneSelf := by
  have hv := Char.utf8Size_eq_one_iff.mp h
  rw [UInt32.le_iff_toNat_le] at hv
  rw [UInt32.toNat_toUInt8]
  unfold RuneSelf
  have : (127 : UInt32).toNat = 127 := rfl
  omega

/-- The first byte of an encoding: a byte below `RuneSelf` that is the whole rune, or the lead
byte of a longer encoding, all of whose bytes are at least `RuneSelf`. -/
theorem utf8EncodeChar_head (c : Char) :
    (∃ b, String.utf8EncodeChar c = [b] ∧ b.toNat < RuneSelf ∧ Char.ofNat b.toNat = c) ∨
      ∃ b tail, String.utf8EncodeChar c = b :: tail ∧ RuneSelf ≤ b.toNat ∧
        ∀ b' ∈ tail, RuneSelf ≤ b'.toNat := by
  by_cases h1 : c.utf8Size = 1
  · exact Or.inl ⟨_,String.utf8EncodeChar_eq_singleton h1,toUInt8_lt_runeSelf h1,ofNat_toUInt8 h1⟩
  · obtain ⟨b₀,tail,henc,-,hself,-,-,htail⟩ := utf8EncodeChar_shape (c := c)
      (by have := c.utf8Size_pos; omega)
    exact Or.inr ⟨b₀,tail,henc,hself,fun b hb => (htail b hb).2⟩

theorem utf8EncodeChar_of_mem_lt {c : Char} {b : UInt8} (hb : b ∈ String.utf8EncodeChar c)
    (hlt : b.toNat < RuneSelf) : String.utf8EncodeChar c = [b] ∧ Char.ofNat b.toNat = c := by
  rcases utf8EncodeChar_head c with ⟨b₀,henc,-,hc⟩ | ⟨b₀,tail,henc,hself,htail⟩
  · rw [henc,List.mem_singleton] at hb
    subst hb
    exact ⟨henc,hc⟩
  · rw [henc,List.mem_cons] at hb
    rcases hb with rfl | hb
    · omega
    · have := htail b hb
      omega

theorem decodeLastRune_append_encode (pre : List UInt8) (c : Char) :
    decodeLastRune (pre ++ String.utf8EncodeChar c) = (c,c.utf8Size) := by
  have hlen : (pre ++ String.utf8EncodeChar c).length = pre.length + c.utf8Size := by
    rw [List.length_append,String.length_utf8EncodeChar]
  by_cases h1 : c.utf8Size = 1
  · -- one byte below `RuneSelf`
    have hlast : (pre ++ String.utf8EncodeChar c)[pre.length + 1 - 1]?.getD 0 = c.val.toUInt8 := by
      rw [String.utf8EncodeChar_eq_singleton h1,Nat.add_sub_cancel,List.getElem?_append_right
        (Nat.le_refl _),Nat.sub_self]
      rfl
    unfold decodeLastRune
    rw [hlen,h1,if_neg (by omega),hlast,if_pos (toUInt8_lt_runeSelf h1),ofNat_toUInt8 h1]
  · obtain ⟨b₀,tail,henc,hlead,-,ht1,ht3,htail⟩ := utf8EncodeChar_shape (c := c)
      (by have := c.utf8Size_pos; omega)
    have hsize : c.utf8Size = 1 + tail.length := by
      rw [← String.length_utf8EncodeChar,henc,List.length_cons]
      omega
    have hget : ∀ i, (pre ++ String.utf8EncodeChar c)[pre.length + i]? = (b₀ :: tail)[i]? := by
      intro i
      rw [henc,List.getElem?_append_right (Nat.le_add_right _ _),Nat.add_sub_cancel_left]
    have hlast : RuneSelf ≤ ((pre ++ String.utf8EncodeChar c)[pre.length + c.utf8Size - 1]?.getD
        0).toNat := by
      rw [show pre.length + c.utf8Size - 1 = pre.length + ((tail.length - 1) + 1) by omega,hget,
        List.getElem?_cons_succ,List.getElem?_eq_getElem (by omega),Option.getD_some]
      exact (htail _ (List.getElem_mem _)).2
    have hscan : scanBack (pre ++ String.utf8EncodeChar c) (max ((pre.length + c.utf8Size : Nat) -
        (UTFMax : Int)) 0) ((pre.length + c.utf8Size : Nat) - 2 : Int) = pre.length := by
      rw [show ((pre.length + c.utf8Size : Nat) - 2 : Int) = ((pre.length + (tail.length - 1) : Nat) :
        Int) by omega]
      refine scanBack_eq (by unfold UTFMax; omega) (by rw [← Nat.add_zero pre.length,hget]; exact hlead)
        _ (fun j hj hjk => ?_)
      obtain ⟨i,rfl⟩ : ∃ i, j = pre.length + (i + 1) := ⟨j - pre.length - 1,by omega⟩
      rw [hget,List.getElem?_cons_succ,List.getElem?_eq_getElem (by omega),Option.getD_some]
      exact (htail _ (List.getElem_mem _)).1
    unfold decodeLastRune
    dsimp only
    rw [hlen,if_neg (by omega),if_neg (by omega),hscan,
      if_neg (show ¬((pre.length : Int) < 0) by omega),Int.toNat_natCast,List.drop_left,
      decodeRune_encodeChar,if_neg (by omega)]

theorem scanBack_le (p : List UInt8) (lim start : Int) : scanBack p lim start ≤ start := by
  fun_induction scanBack p lim start with
  | case1 => exact Int.le_refl _
  | case2 => exact Int.le_refl _
  | case3 start _ _ ih => omega

theorem utf8EncodeChar_ofNat_byte {b : UInt8} (hb : b.toNat < RuneSelf) :
    String.utf8EncodeChar (Char.ofNat b.toNat) = [b] := by
  unfold RuneSelf at hb
  have hval : (Char.ofNat b.toNat).val.toNat = b.toNat := by
    unfold Char.ofNat
    rw [dif_pos (Or.inl (by omega))]
    rfl
  have hsize : (Char.ofNat b.toNat).utf8Size = 1 := by
    rw [Char.utf8Size_eq_one_iff,UInt32.le_iff_toNat_le,hval]
    exact Nat.le_of_lt_succ hb
  rw [String.utf8EncodeChar_eq_singleton hsize]
  congr 1
  apply UInt8.toNat_inj.mp
  rw [UInt32.toNat_toUInt8,hval]
  omega

/-- What `DecodeLastRune` finds at the end of a non-empty string: a valid encoding that ends
it, or the error of width one. -/
theorem decodeLastRune_cases {p : List UInt8} (hp : p ≠ []) :
    decodeLastRune p = (RuneError,1) ∨
      ∃ pre c, p = pre ++ String.utf8EncodeChar c ∧ decodeLastRune p = (c,c.utf8Size) := by
  have he : p.length ≠ 0 := by simpa using hp
  unfold decodeLastRune
  dsimp only
  rw [if_neg he]
  by_cases hb : (p[p.length - 1]?.getD 0).toNat < RuneSelf
  · -- an ASCII byte ends the string
    right
    rw [if_pos hb]
    refine ⟨p.dropLast,Char.ofNat (p[p.length - 1]?.getD 0).toNat,?_,?_⟩
    · rw [utf8EncodeChar_ofNat_byte hb,List.getElem?_eq_getElem (by omega),Option.getD_some,
        ← List.getLast_eq_getElem hp,List.dropLast_append_getLast]
    · have hsize : (Char.ofNat (p[p.length - 1]?.getD 0).toNat).utf8Size = 1 := by
        rw [← String.length_utf8EncodeChar,utf8EncodeChar_ofNat_byte hb]
        rfl
      rw [hsize]
  · rw [if_neg hb]
    generalize hst : (if scanBack p (max ((p.length : Int) - UTFMax) 0) ((p.length : Int) - 2) < 0
      then 0 else scanBack p (max ((p.length : Int) - UTFMax) 0) ((p.length : Int) - 2)) = st
    have hlt : 0 ≤ st ∧ st < p.length := by
      have := scanBack_le p (max ((p.length : Int) - UTFMax) 0) ((p.length : Int) - 2)
      rw [← hst]
      split_ifs <;> omega
    have hne : p.drop st.toNat ≠ [] := by
      intro h
      have := congrArg List.length h
      rw [List.length_drop,List.length_nil] at this
      omega
    by_cases hend : st + ((decodeRune (p.drop st.toNat)).2 : Int) ≠ p.length
    · left
      rw [if_pos hend]
    · rw [if_neg hend]
      rcases decodeRune_cases hne with h | ⟨c,rest,hc,h⟩
      · left
        exact h
      · right
        rw [h] at hend ⊢
        have hrest : rest = [] := by
          have := congrArg List.length hc
          rw [List.length_drop,List.length_append,String.length_utf8EncodeChar] at this
          exact List.eq_nil_of_length_eq_zero (by omega)
        rw [hrest,List.append_nil] at hc
        refine ⟨p.take st.toNat,c,?_,rfl⟩
        rw [← hc,List.take_append_drop]

theorem decodeLastRune_width_pos {p : List UInt8} (hp : p ≠ []) : 0 < (decodeLastRune p).2 := by
  rcases decodeLastRune_cases hp with h | ⟨_,c,_,h⟩ <;> rw [h]
  · exact Nat.one_pos
  · exact c.utf8Size_pos

/-! ### The runes of a string -/

/-- The runes `for _, r := range s` visits: each step decodes as `DecodeRune` does. -/
def runes (p : List UInt8) : List Char :=
  if h : p = [] then [] else (decodeRune p).1 :: runes (p.drop (decodeRune p).2)
termination_by p.length
decreasing_by
  have := decodeRune_width_pos h
  have := List.length_pos_iff.mpr h
  rw [List.length_drop]
  omega

theorem runes_encode_append (c : Char) (rest : List UInt8) :
    runes (String.utf8EncodeChar c ++ rest) = c :: runes rest := by
  have hne : String.utf8EncodeChar c ++ rest ≠ [] :=
    List.append_ne_nil_of_left_ne_nil (utf8EncodeChar_ne_nil c) rest
  rw [runes,dif_neg hne,decodeRune_encode_append]
  rw [← String.length_utf8EncodeChar,List.drop_left]

/-- A valid string's runes are the characters it encodes. -/
@[simp] theorem runes_encode (cs : List Char) : runes (encode cs) = cs := by
  induction cs with
  | nil => simp [runes]
  | cons c cs ih => rw [encode_cons,runes_encode_append,ih]

/-- The runes of a string that starts with a valid encoding: its characters, then the runes
of the rest, whatever the rest is. -/
theorem runes_encode_append_all (cs : List Char) (rest : List UInt8) :
    runes (encode cs ++ rest) = cs ++ runes rest := by
  induction cs with
  | nil => rfl
  | cons c cs ih => rw [encode_cons, List.append_assoc, runes_encode_append, ih, List.cons_append]

/-- The pairs `(i, r)` that `for i, r := range s` visits: each rune with its byte offset, for
the bytes `p` that start at offset `i`. -/
def rangeFrom (i : Nat) (p : List UInt8) : List (Nat × Char) :=
  if h : p = [] then []
  else (i, (decodeRune p).1) :: rangeFrom (i + (decodeRune p).2) (p.drop (decodeRune p).2)
termination_by p.length
decreasing_by
  have := decodeRune_width_pos h
  have := List.length_pos_iff.mpr h
  rw [List.length_drop]
  omega

@[simp] theorem rangeFrom_nil (i : Nat) : rangeFrom i [] = [] := by
  rw [rangeFrom, dif_pos rfl]

theorem rangeFrom_encode_append (i : Nat) (c : Char) (rest : List UInt8) :
    rangeFrom i (String.utf8EncodeChar c ++ rest) = (i, c) :: rangeFrom (i + c.utf8Size) rest := by
  have hne : String.utf8EncodeChar c ++ rest ≠ [] :=
    List.append_ne_nil_of_left_ne_nil (utf8EncodeChar_ne_nil c) rest
  rw [rangeFrom, dif_neg hne, decodeRune_encode_append]
  rw [← String.length_utf8EncodeChar, List.drop_left]

/-- `utf8.RuneCountInString`. -/
def runeCount (p : List UInt8) : Nat := (runes p).length

@[simp] theorem runeCount_encode (cs : List Char) : runeCount (encode cs) = cs.length := by
  simp [runeCount]

theorem encode_injective {cs ds : List Char} (h : encode cs = encode ds) : cs = ds := by
  rw [← runes_encode cs,h,runes_encode]

theorem encode_eq_nil (cs : List Char) : encode cs = [] ↔ cs = [] := by
  constructor
  · intro h
    exact encode_injective (show encode cs = encode [] from h)
  · rintro rfl
    rfl

theorem utf8EncodeChar_inj {c d : Char} (h : String.utf8EncodeChar c = String.utf8EncodeChar d) :
    c = d := by
  have hc := decodeRune_encodeChar c
  rw [h,decodeRune_encodeChar] at hc
  exact (Prod.mk.inj hc).1.symm

/-- A byte string is valid UTF-8 when it encodes some characters. -/
def Valid (p : List UInt8) : Prop := ∃ cs, p = encode cs

/-! ### Writing a rune -/

/-- The character `strings.Builder.WriteRune` and `utf8.AppendRune` write for a rune: the rune
itself when it is a Unicode scalar value, `RuneError` otherwise. -/
def runeOf (r : Int) : Char := if 0 ≤ r ∧ r.toNat.isValidChar then Char.ofNat r.toNat else RuneError

@[simp] theorem runeOf_toNat (c : Char) : runeOf c.toNat = c := by
  have hc : (c.toNat : Int).toNat.isValidChar := by
    rw [Int.toNat_natCast]
    exact c.valid
  rw [runeOf, if_pos ⟨Int.natCast_nonneg _, hc⟩, Int.toNat_natCast, Char.ofNat_toNat]

end GoUtf8
