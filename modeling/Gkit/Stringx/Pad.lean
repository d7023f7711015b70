import Gkit.Library.GoUtf8
import Mathlib

/-!
`RepeatChar`, the `Pad*` functions, `RemoveChar` and `Shuffle` of `sys/stringx/stringx.go`. A
string is its bytes and a rune is an integer: `strings.Builder.WriteRune` writes the encoding of
a rune that is a Unicode scalar value and that of `RuneError` for any other (`runeOf`). Sizes
count runes, as `utf8.RuneCountInString` does, and `[]rune(s)` and `range` decode as `runes`.
`fastrand.Intn(n)` in `Shuffle` is the parameter `intn`; each `n` is drawn once.
-/

namespace Gkit.Stringx

open GoUtf8

/-! ### The model -/

/-- `RepeatChar`: `for i := 0; i < repeat; i++ { sb.WriteRune(ch) }`. -/
def RepeatChar (ch «repeat» : Int) : List UInt8 :=
  if «repeat» ≤ 0 then []
  else (List.range «repeat».toNat).foldl (fun sb _ => sb ++ String.utf8EncodeChar (runeOf ch)) []

def padRawLeftChar (s : List UInt8) (ch padSize : Int) : List UInt8 := RepeatChar ch padSize ++ s

def padRawRightChar (s : List UInt8) (ch padSize : Int) : List UInt8 := s ++ RepeatChar ch padSize

def padCharLeftOrRight (s : List UInt8) (size ch : Int) (isLeft : Bool) : List UInt8 :=
  if size ≤ 0 then s
  else
    let pads := size - runeCount s
    if pads ≤ 0 then s
    else if isLeft then padRawLeftChar s ch pads else padRawRightChar s ch pads

def PadLeftChar (s : List UInt8) (size ch : Int) : List UInt8 := padCharLeftOrRight s size ch true

def PadLeftSpace (s : List UInt8) (size : Int) : List UInt8 := PadLeftChar s size ' '.toNat

def PadRightChar (s : List UInt8) (size ch : Int) : List UInt8 := padCharLeftOrRight s size ch false

def PadRightSpace (s : List UInt8) (size : Int) : List UInt8 := PadRightChar s size ' '.toNat

/-- `PadCenterChar`: half the pads, rounded down, on the left, the rest on the right. Go's `/`
on `int`s truncates. -/
def PadCenterChar (s : List UInt8) (size ch : Int) : List UInt8 :=
  if size ≤ 0 then s
  else
    let length : Int := runeCount s
    let pads := size - length
    if pads ≤ 0 then s
    else
      let leftPads := pads.tdiv 2
      let s := if leftPads > 0 then padRawLeftChar s ch leftPads else s
      let rightPads := size - leftPads - length
      if rightPads > 0 then padRawRightChar s ch rightPads else s

def PadCenterSpace (s : List UInt8) (size : Int) : List UInt8 := PadCenterChar s size ' '.toNat

/-- `RemoveChar`: `for _, v := range s { if v != rmVal { sb.WriteRune(v) } }`. -/
def RemoveChar (s : List UInt8) (rmVal : Int) : List UInt8 :=
  if s = [] then s
  else
    (runes s).foldl (fun sb v => if (v.toNat : Int) ≠ rmVal then sb ++ String.utf8EncodeChar v else sb)
      []

/-- The loop of `Shuffle` from `i` down to `1`: `index = fastrand.Intn(i + 1); if i != index {
runes[i], runes[index] = runes[index], runes[i] }`. -/
def shuffleLoop (intn : Nat → Nat) : List Char → Nat → List Char
  | rs, 0 => rs
  | rs, i + 1 =>
    let index := intn (i + 2)
    let rs := if i + 1 ≠ index then
        (rs.set (i + 1) (rs.getD index RuneError)).set index (rs.getD (i + 1) RuneError)
      else rs
    shuffleLoop intn rs i

def Shuffle (intn : Nat → Nat) (s : List UInt8) : List UInt8 :=
  if s = [] then s else encode (shuffleLoop intn (runes s) ((runes s).length - 1))

/-! ### Repetition and padding -/

theorem RepeatChar_eq (ch «repeat» : Int) :
    RepeatChar ch «repeat» = encode (List.replicate «repeat».toNat (runeOf ch)) := by
  unfold RepeatChar
  split_ifs with h
  · rw [show «repeat».toNat = 0 by omega, List.replicate_zero, encode_nil]
  · -- the loop appends one encoding a turn, whatever it has written before
    have hloop : ∀ (n : Nat) (sb : List UInt8),
        (List.range n).foldl (fun sb _ => sb ++ String.utf8EncodeChar (runeOf ch)) sb =
          sb ++ encode (List.replicate n (runeOf ch)) := by
      intro n
      induction n with
      | zero => intro sb; simp
      | succ n ih =>
        intro sb
        rw [List.range_succ, List.foldl_append, ih, List.replicate_succ', encode_append]
        simp
    rw [hloop, List.nil_append]

theorem tdiv_two_of_pos {pads : Int} (h : 0 < pads) : pads.tdiv 2 = pads / 2 :=
  Int.tdiv_eq_ediv_of_nonneg (by omega)

/-- On any bytes, valid or not, the pads are the pad rune's encoding, repeated as often as the
string's rune count falls short of `size`. -/
theorem padCharLeftOrRight_bytes (s : List UInt8) (size ch : Int) (isLeft : Bool) :
    padCharLeftOrRight s size ch isLeft =
      if isLeft then encode (List.replicate (size - runeCount s).toNat (runeOf ch)) ++ s
      else s ++ encode (List.replicate (size - runeCount s).toNat (runeOf ch)) := by
  unfold padCharLeftOrRight padRawLeftChar padRawRightChar
  dsimp only
  by_cases hpad : size ≤ 0 ∨ size - runeCount s ≤ 0
  · -- no pads: the string itself, and `toNat` of the shortfall is zero
    have hz : (size - runeCount s).toNat = 0 := by omega
    rw [hz, List.replicate_zero, encode_nil, List.nil_append, List.append_nil, ite_self]
    split_ifs <;> first | rfl | omega
  · rw [if_neg (by omega), if_neg (by omega), RepeatChar_eq]

section Pad

variable (cs : List Char) (size ch : Int)

/-- The pads a string of `cs.length` runes takes to reach `size` runes, on the left or on the
right. -/
theorem padCharLeftOrRight_eq (isLeft : Bool) :
    padCharLeftOrRight (encode cs) size ch isLeft =
      if isLeft then encode (List.replicate (size - cs.length).toNat (runeOf ch) ++ cs)
      else encode (cs ++ List.replicate (size - cs.length).toNat (runeOf ch)) := by
  rw [padCharLeftOrRight_bytes, runeCount_encode, encode_append, encode_append]

/-- `PadCenterChar` puts half the shortfall, rounded down, before the runes and the rest
after them. -/
theorem PadCenterChar_eq :
    PadCenterChar (encode cs) size ch =
      encode (List.replicate ((size - cs.length).toNat / 2) (runeOf ch) ++ cs ++
        List.replicate ((size - cs.length).toNat - (size - cs.length).toNat / 2) (runeOf ch)) := by
  unfold PadCenterChar padRawLeftChar padRawRightChar
  dsimp only
  rw [runeCount_encode]
  by_cases hpad : size ≤ 0 ∨ size - cs.length ≤ 0
  · have hz : (size - cs.length).toNat = 0 := by omega
    rw [hz, Nat.zero_div, Nat.sub_zero, List.replicate_zero, List.nil_append, List.append_nil]
    split_ifs <;> first | rfl | omega
  · rw [if_neg (by omega), if_neg (by omega)]
    rw [tdiv_two_of_pos (by omega),
      if_pos (show size - (size - cs.length) / 2 - cs.length > 0 by omega)]
    have hr : (size - (size - cs.length) / 2 - cs.length).toNat =
        (size - cs.length).toNat - (size - cs.length).toNat / 2 := by omega
    by_cases hleft : (size - cs.length) / 2 > 0
    · have hl : ((size - cs.length) / 2).toNat = (size - cs.length).toNat / 2 := by omega
      rw [if_pos hleft, RepeatChar_eq, RepeatChar_eq, hl, hr]
      simp only [encode_append, List.append_assoc]
    · have hl0 : (size - cs.length).toNat / 2 = 0 := by omega
      rw [if_neg hleft, RepeatChar_eq, hr, hl0, List.replicate_zero, List.nil_append,
        encode_append]

/-- Padding a valid string of runes `cs` to `size` runes adds the pad rune as many times as
`cs` falls short of `size`: before it, after it, or split in halves around it with the smaller
half on the left. A string as long as `size` or longer, or a `size` of zero or less, comes
back as it is, and a rune that is not a scalar value pads as `RuneError`. -/
theorem pad_adds_shortfall :
    PadLeftChar (encode cs) size ch =
        encode (List.replicate (size - cs.length).toNat (runeOf ch) ++ cs) ∧
      PadRightChar (encode cs) size ch =
        encode (cs ++ List.replicate (size - cs.length).toNat (runeOf ch)) ∧
      PadCenterChar (encode cs) size ch =
        encode (List.replicate ((size - cs.length).toNat / 2) (runeOf ch) ++ cs ++
          List.replicate ((size - cs.length).toNat - (size - cs.length).toNat / 2) (runeOf ch)) :=
  ⟨padCharLeftOrRight_eq cs size ch true, padCharLeftOrRight_eq cs size ch false,
    PadCenterChar_eq cs size ch⟩

/-- Left padding, on any bytes, valid or not: the pad runes come first, then the string's own
runes as `range` reads them. -/
theorem runes_PadLeftChar (s : List UInt8) :
    runes (PadLeftChar s size ch) =
      List.replicate (size - runeCount s).toNat (runeOf ch) ++ runes s := by
  rw [PadLeftChar, padCharLeftOrRight_bytes, if_pos rfl, runes_encode_append_all]

end Pad

/-! ### Removing a rune -/

theorem removeLoop_eq (rmVal : Int) (vs : List Char) (sb : List UInt8) :
    vs.foldl (fun sb v => if (v.toNat : Int) ≠ rmVal then sb ++ String.utf8EncodeChar v else sb) sb =
      sb ++ encode (vs.filter fun v => (v.toNat : Int) ≠ rmVal) := by
  induction vs generalizing sb with
  | nil => simp
  | cons v vs ih =>
    rw [List.foldl_cons, ih]
    by_cases hv : (v.toNat : Int) = rmVal
    · simp [hv]
    · simp [hv]

theorem RemoveChar_eq (s : List UInt8) (rmVal : Int) :
    RemoveChar s rmVal = encode ((runes s).filter fun v => (v.toNat : Int) ≠ rmVal) := by
  unfold RemoveChar
  split_ifs with hs
  · rw [hs]
    simp [runes]
  · rw [removeLoop_eq, List.nil_append]

/-- `RemoveChar` always returns valid UTF-8 without the rune `rmVal`, and it returns its
argument exactly when that is valid UTF-8 without the rune: bytes that do not decode come out
as `RuneError`, so an invalid string changes even when it has no `rmVal` in it. -/
theorem removeChar_valid (s : List UInt8) (rmVal : Int) :
    Valid (RemoveChar s rmVal) ∧ (∀ v ∈ runes (RemoveChar s rmVal), (v.toNat : Int) ≠ rmVal) ∧
      (RemoveChar s rmVal = s ↔ Valid s ∧ ∀ v ∈ runes s, (v.toNat : Int) ≠ rmVal) := by
  rw [RemoveChar_eq, runes_encode]
  refine ⟨⟨_, rfl⟩, fun v hv => by simpa using (List.mem_filter.mp hv).2, ?_⟩
  constructor
  · intro h
    refine ⟨⟨_, h.symm⟩, ?_⟩
    have hr : (runes s).filter (fun v => (v.toNat : Int) ≠ rmVal) = runes s := by
      have := congrArg runes h
      rwa [runes_encode] at this
    intro v hv
    have hmem : v ∈ (runes s).filter (fun v => (v.toNat : Int) ≠ rmVal) := by
      rw [hr]
      exact hv
    simpa using (List.mem_filter.mp hmem).2
  · rintro ⟨⟨cs, rfl⟩, hno⟩
    rw [runes_encode] at hno ⊢
    rw [List.filter_eq_self.mpr fun v hv => by simpa using hno v hv]

/-! ### Shuffling -/

theorem swap_perm (rs : List Char) {i j : Nat} (hi : i < rs.length) (hj : j < rs.length) :
    ((rs.set i (rs.getD j RuneError)).set j (rs.getD i RuneError)).Perm rs := by
  rw [List.getD_eq_getElem _ _ hj, List.getD_eq_getElem _ _ hi]
  exact List.set_set_perm hi hj

theorem shuffleLoop_perm (intn : Nat → Nat) (hintn : ∀ n, 0 < n → intn n < n) :
    ∀ (i : Nat) (rs : List Char), i < rs.length → (shuffleLoop intn rs i).Perm rs := by
  intro i
  induction i with
  | zero => intro rs _; exact List.Perm.refl rs
  | succ i ih =>
    intro rs hi
    have hidx : intn (i + 2) < rs.length := Nat.lt_of_lt_of_le (hintn (i + 2) (by omega)) hi
    have hstep : (if i + 1 ≠ intn (i + 2) then
        (rs.set (i + 1) (rs.getD (intn (i + 2)) RuneError)).set (intn (i + 2))
          (rs.getD (i + 1) RuneError) else rs).Perm rs := by
      split_ifs
      · exact swap_perm rs hi hidx
      · exact List.Perm.refl rs
    exact (ih _ (hstep.length_eq ▸ Nat.lt_of_succ_lt hi)).trans hstep

/-- For every sequence of draws that `fastrand.Intn` can make, `Shuffle` returns valid UTF-8
whose runes are those of its argument, permuted. -/
theorem shuffle_perm (intn : Nat → Nat) (hintn : ∀ n, 0 < n → intn n < n) (s : List UInt8) :
    Valid (Shuffle intn s) ∧ (runes (Shuffle intn s)).Perm (runes s) := by
  unfold Shuffle
  split_ifs with hs
  · rw [hs]
    exact ⟨⟨[], rfl⟩, List.Perm.refl _⟩
  · have hne : runes s ≠ [] := by
      rw [runes, dif_neg hs]
      exact List.cons_ne_nil _ _
    have hlen : (runes s).length - 1 < (runes s).length := by
      have := List.length_pos_iff.mpr hne
      omega
    rw [runes_encode]
    exact ⟨⟨_, rfl⟩, shuffleLoop_perm intn hintn _ _ hlen⟩

/-- `Intn` drawing `0` at every call, the lowest draw it can make. -/
theorem shuffle_perm_zero :
    (∀ n, 0 < n → (fun _ => 0 : Nat → Nat) n < n) ∧
      Valid (Shuffle (fun _ => 0) (encode "abc".toList)) ∧
      (runes (Shuffle (fun _ => 0) (encode "abc".toList))).Perm (runes (encode "abc".toList)) :=
  ⟨fun _ h => h, shuffle_perm (fun _ => 0) (fun _ h => h) (encode "abc".toList)⟩

/-- Drawing `0` each time rotates the runes: `c` moves to the front, then `b`. -/
example : Shuffle (fun _ => 0) (encode "abc".toList) = encode "bca".toList := by decide +kernel

end Gkit.Stringx
