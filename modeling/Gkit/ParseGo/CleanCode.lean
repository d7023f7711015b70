import Gkit.Library.GoUtf8

/-!
`cleanCode` and `checkRepeat` of `parser/parse_go/model.go`: `pileDismantle` removes a line of
inserted code with the first, and `pileDriving` refuses to insert code twice with the second.
Both walk the text rune by rune with `range`, collect the runes of the current line, and compare
its `strings.TrimSpace` with the code. Against them stands what a text's lines are: what lies
between its newlines, where a text that ends with a newline, or is empty, has no line after it.
-/

namespace Gkit.ParseGo

open GoUtf8

/-- `unicode.IsSpace`: the Latin-1 spaces, then Unicode's `White_Space` above them. -/
def IsSpace (r : Char) : Bool :=
  if r.val ≤ 0xff then [0x09, 0x0a, 0x0b, 0x0c, 0x0d, 0x20, 0x85, 0xa0].contains r.val
  else
    [0x1680, 0x2028, 0x2029, 0x202f, 0x205f, 0x3000].contains r.val ||
      (decide (0x2000 ≤ r.val) && decide (r.val ≤ 0x200a))

/-- `strings.TrimSpace(string(bf))`: on the encoding of runes it drops the white space at both
ends. -/
def TrimSpace (bf : List Char) : List Char :=
  ((bf.dropWhile IsSpace).reverse.dropWhile IsSpace).reverse

def errNotFound : String := "未找到内容"

/-- The loop of `cleanCode` over the pairs that `range` visits, with the runes `bf` of the
current line and the offset `lineStart` where that line begins. -/
def cleanLoop (clearCode srcData : List UInt8) :
    List (Nat × Char) → List Char → Nat → List UInt8 × Option String
  | [], bf, lineStart =>
    -- the branch for a last line without a newline
    if lineStart < srcData.length ∧ encode (TrimSpace bf) = clearCode then
      (srcData.take lineStart, none)
    else (srcData, some errNotFound)
  | (i, v) :: rest, bf, lineStart =>
    if v = '\n' then
      if encode (TrimSpace bf) = clearCode then
        (srcData.take lineStart ++ srcData.drop (i + 1), none)
      else cleanLoop clearCode srcData rest [] (i + 1)
    else cleanLoop clearCode srcData rest (bf ++ [v]) lineStart

/-- `cleanCode`: the text without the line, and no error; or the text as it was, and an
error. -/
def cleanCode (clearCode srcData : List UInt8) : List UInt8 × Option String :=
  cleanLoop clearCode srcData (rangeFrom 0 srcData) [] 0

def pileDismantle (srcData clearCode : List UInt8) : List UInt8 × Option String :=
  cleanCode clearCode srcData

/-- The loop of `checkRepeat` over the runes that `range` visits. -/
def repeatLoop (code : List UInt8) : List Char → List Char → Bool
  | [], _ => false
  | v :: rest, bf =>
    if v = '\n' then
      if encode (TrimSpace bf) = code then true else repeatLoop code rest []
    else repeatLoop code rest (bf ++ [v])

def checkRepeat (code context : List UInt8) : Bool := repeatLoop code (runes context) []

/-! ### Lines -/

/-- A line of a text: its characters, and whether a newline ends it. -/
structure Line where
  chars : List Char
  ended : Bool
  deriving DecidableEq, Repr

def Line.text (l : Line) : List Char := l.chars ++ if l.ended then ['\n'] else []

/-- The lines of the text `cs` that follows the characters `cur` of a line already begun. -/
def linesFrom (cur : List Char) : List Char → List Line
  | [] => if cur = [] then [] else [⟨cur, false⟩]
  | c :: cs => if c = '\n' then ⟨cur, true⟩ :: linesFrom [] cs else linesFrom (cur ++ [c]) cs

def toLines (cs : List Char) : List Line := linesFrom [] cs

/-- A line is the code when its trimmed text is. -/
def lineMatches (clearCode : List UInt8) (l : Line) : Bool :=
  decide (encode (TrimSpace l.chars) = clearCode)

/-- What `cleanCode` is for: the text without its first line that is the code, newline
included; or, when no line is, the text and an error. -/
def cleanSpec (clearCode : List UInt8) (cs : List Char) : List UInt8 × Option String :=
  if (toLines cs).any (lineMatches clearCode) then
    (encode (((toLines cs).eraseP (lineMatches clearCode)).flatMap Line.text), none)
  else (encode cs, some errNotFound)

theorem linesFrom_text (cur cs : List Char) : (linesFrom cur cs).flatMap Line.text = cur ++ cs := by
  induction cs generalizing cur with
  | nil =>
    by_cases h : cur = []
    · simp [linesFrom, h]
    · simp [linesFrom, h, Line.text]
  | cons c cs ih =>
    by_cases hc : c = '\n'
    · subst hc
      simp [linesFrom, Line.text, ih]
    · simp only [linesFrom, if_neg hc, ih, List.append_assoc, List.singleton_append]

theorem toLines_text (cs : List Char) : (toLines cs).flatMap Line.text = cs :=
  linesFrom_text [] cs

/-! ### `cleanCode` removes the first line that is the code -/

theorem length_encode_append_char (cs : List Char) (c : Char) :
    (encode (cs ++ [c])).length = (encode cs).length + c.utf8Size := by
  simp [String.length_utf8EncodeChar]

theorem utf8EncodeChar_newline : String.utf8EncodeChar '\n' = [10] := rfl

/-- The loop from any point of a valid text: `done` is what lies before the current line, `cur`
the line's characters so far and `rest` what `range` has still to visit. -/
theorem cleanLoop_encode (clearCode : List UInt8) (rest : List Char) :
    ∀ cur done : List Char,
      cleanLoop clearCode (encode (done ++ cur ++ rest))
          (rangeFrom (encode (done ++ cur)).length (encode rest)) cur (encode done).length =
        if (linesFrom cur rest).any (lineMatches clearCode) then
          (encode (done ++ ((linesFrom cur rest).eraseP (lineMatches clearCode)).flatMap Line.text),
            none)
        else (encode (done ++ cur ++ rest), some errNotFound) := by
  induction rest with
  | nil =>
    intro cur done
    rw [encode_nil, rangeFrom_nil, cleanLoop, List.append_nil]
    by_cases hcur : cur = []
    · -- nothing of a last line: the loop has found no line
      subst hcur
      simp [linesFrom]
    · have hne : encode cur ≠ [] := (encode_eq_nil cur).not.mpr hcur
      by_cases hm : encode (TrimSpace cur) = clearCode
      · simp [linesFrom, hcur, hne, hm, lineMatches]
      · simp [linesFrom, hcur, hm, lineMatches]
  | cons c rest ih =>
    intro cur done
    rw [encode_cons, rangeFrom_encode_append, cleanLoop]
    by_cases hc : c = '\n'
    · subst hc
      have hlen : (encode (done ++ cur)).length + 1 = (encode (done ++ cur ++ ['\n'])).length := by
        rw [length_encode_append_char]
        rfl
      have hsrc : done ++ cur ++ '\n' :: rest = done ++ cur ++ ['\n'] ++ rest := by simp
      rw [if_pos rfl, show '\n'.utf8Size = 1 from rfl]
      by_cases hm : encode (TrimSpace cur) = clearCode
      · -- the line is the code: the loop cuts it and its newline out
        have hcut : encode (done ++ cur ++ '\n' :: rest) =
            encode done ++ (encode cur ++ ([10] ++ encode rest)) := by
          simp [utf8EncodeChar_newline]
        have hdrop : (encode (done ++ cur ++ '\n' :: rest)).drop ((encode (done ++ cur)).length + 1) =
            encode rest := by
          rw [show encode (done ++ cur ++ '\n' :: rest) = encode (done ++ cur) ++ ([10] ++ encode rest)
            by simp [utf8EncodeChar_newline], List.drop_append, List.drop_eq_nil_of_le (by omega),
            List.nil_append, Nat.add_sub_cancel_left]
          rfl
        rw [if_pos hm, hdrop, hcut, List.take_left]
        simp [linesFrom, lineMatches, hm, linesFrom_text]
      · -- the line is not the code: the next one begins after the newline
        have := ih [] (done ++ cur ++ ['\n'])
        rw [List.append_nil] at this
        rw [if_neg hm, hlen, hsrc, this]
        simp [linesFrom, lineMatches, hm, Line.text]
    · -- the rune joins the current line
      have hlen : (encode (done ++ cur)).length + c.utf8Size =
          (encode (done ++ (cur ++ [c]))).length := by
        rw [← List.append_assoc, length_encode_append_char]
      have hsrc : done ++ cur ++ c :: rest = done ++ (cur ++ [c]) ++ rest := by simp
      rw [if_neg hc, hlen, hsrc, ih (cur ++ [c]) done]
      simp [linesFrom, hc]

theorem cleanCode_eq (clearCode : List UInt8) (cs : List Char) :
    cleanCode clearCode (encode cs) = cleanSpec clearCode cs := by
  have := cleanLoop_encode clearCode cs [] []
  simpa [cleanCode, cleanSpec, toLines] using this

/-! ### `checkRepeat` sees only the lines a newline ends -/

theorem repeatLoop_eq (code : List UInt8) (rest : List Char) :
    ∀ cur : List Char,
      repeatLoop code rest cur = (linesFrom cur rest).any (fun l => l.ended && lineMatches code l) := by
  induction rest with
  | nil =>
    intro cur
    by_cases hcur : cur = [] <;> simp [repeatLoop, linesFrom, hcur]
  | cons c rest ih =>
    intro cur
    by_cases hc : c = '\n'
    · subst hc
      by_cases hm : encode (TrimSpace cur) = code
      · simp [repeatLoop, linesFrom, lineMatches, hm]
      · simp [repeatLoop, linesFrom, lineMatches, hm, ih]
    · simp [repeatLoop, linesFrom, hc, ih]

theorem checkRepeat_eq (code : List UInt8) (cs : List Char) :
    checkRepeat code (encode cs) = (toLines cs).any (fun l => l.ended && lineMatches code l) := by
  rw [checkRepeat, runes_encode]
  exact repeatLoop_eq code cs []

/-- `cleanCode` removes a line that `checkRepeat` does not see exactly when the only lines
that are the code lack a newline: the last line of a text that does not end with one. -/
theorem cleanCode_checkRepeat_disagree (clearCode : List UInt8) (cs : List Char) :
    ((cleanCode clearCode (encode cs)).2 = none ∧ checkRepeat clearCode (encode cs) = false) ↔
      (∃ l ∈ toLines cs, l.ended = false ∧ lineMatches clearCode l = true) ∧
        ∀ l ∈ toLines cs, l.ended = true → lineMatches clearCode l = false := by
  rw [cleanCode_eq, checkRepeat_eq, cleanSpec, List.any_eq_false]
  constructor
  · rintro ⟨hok, hrep⟩
    split at hok
    · case isTrue hany =>
      obtain ⟨l, hl, hm⟩ := List.any_eq_true.mp hany
      refine ⟨⟨l, hl, ?_, hm⟩, fun l' hl' he => ?_⟩
      · cases he : l.ended
        · rfl
        · exact absurd (by simp [he, hm]) (hrep l hl)
      · cases hm' : lineMatches clearCode l'
        · rfl
        · exact absurd (by simp [he, hm']) (hrep l' hl')
    · case isFalse => cases hok
  · rintro ⟨⟨l, hl, -, hm⟩, hall⟩
    refine ⟨by rw [if_pos (List.any_eq_true.mpr ⟨l, hl, hm⟩)], fun l' hl' => ?_⟩
    cases he : l'.ended
    · simp
    · simp [hall l' hl' he]

theorem cleanCode_checkRepeat_disagree_x :
    (cleanCode (encode ['x']) (encode ['x'])).2 = none ∧
      checkRepeat (encode ['x']) (encode ['x']) = false :=
  (cleanCode_checkRepeat_disagree _ _).mpr ⟨⟨⟨['x'], false⟩, by decide, rfl, by decide⟩, by decide⟩

end Gkit.ParseGo
