import Gkit.Library.GoUtf8

/-!
The wildcard matcher of `tools/match/match.go`. `deepMatch` walks both strings a byte at a
time while they are ASCII and hands over to `deepMatchRune`, which walks them a rune at a
time, as soon as either side's next byte is not; both collapse runs of '*' on entry and try a
'*' as nothing first, then as one more unit of the string. `Allowable` gives the bounds of
the strings a pattern can match, read off the pattern's bytes before its first '*'.
-/

namespace Gkit.Match

open GoUtf8

/-- The loop `for len(pattern) > 1 && pattern[0] == '*' && pattern[1] == '*'`. -/
def collapseStars : List UInt8 → List UInt8
  | b₀ :: b₁ :: pattern =>
    if b₀ = '*'.toUInt8 ∧ b₁ = '*'.toUInt8 then collapseStars (b₁ :: pattern)
    else b₀ :: b₁ :: pattern
  | pattern => pattern

/-- How `deepMatchRune` reads the next rune: `utf8.DecodeRuneInString` from a byte above
`0x7f`, the byte itself below, and `(utf8.RuneError, 0)` from an empty string. -/
def readRune : List UInt8 → Char × Nat
  | [] => (RuneError,0)
  | b :: rest => if b > 0x7f then decodeRune (b :: rest) else (Char.ofNat b.toNat,1)

theorem readRune_width_le (p : List UInt8) : (readRune p).2 ≤ p.length := by
  cases p with
  | nil => exact Nat.le_refl 0
  | cons b rest =>
    show (if b > 0x7f then decodeRune (b :: rest) else (Char.ofNat b.toNat,1)).2 ≤ (b :: rest).length
    split
    · exact decodeRune_width_le (List.cons_ne_nil b rest)
    · exact Nat.succ_le_succ (Nat.zero_le _)

theorem length_collapseStars_le (p : List UInt8) : (collapseStars p).length ≤ p.length := by
  fun_induction collapseStars p with
  | case1 b₀ b₁ pattern _ ih =>
    simp only [List.length_cons] at ih ⊢
    omega
  | case2 => exact Nat.le_refl _
  | case3 => exact Nat.le_refl _

mutual

/-- `deepMatchRune`. The measure counts the bytes left, and orders this entry before the loop
it starts on the same strings. -/
def deepMatchRune (str pattern : List UInt8) : Bool :=
  if pattern = ['*'.toUInt8] then true
  else deepMatchRuneLoop str (collapseStars pattern)
termination_by 2 * (str.length + pattern.length) + 1
decreasing_by
  have := length_collapseStars_le pattern
  omega

/-- The loop `for prsz > 0` of `deepMatchRune`, with `sr, srsz` and `pr, prsz` read afresh
from what is left of `str` and `pattern`. -/
def deepMatchRuneLoop (str pattern : List UInt8) : Bool :=
  let s := readRune str
  let p := readRune pattern
  if _hp : p.2 > 0 then
    if p.1 = '*' then
      deepMatchRune str (pattern.drop p.2) ||
        (if _hs : s.2 > 0 then deepMatchRune (str.drop s.2) pattern else false)
    else if p.1 = '?' then
      if s.2 = 0 then false
      else deepMatchRuneLoop (str.drop s.2) (pattern.drop p.2)
    else
      if s.2 = 0 then false
      else if s.1 ≠ p.1 then false
      else deepMatchRuneLoop (str.drop s.2) (pattern.drop p.2)
  else s.2 = 0 ∧ p.2 = 0
termination_by 2 * (str.length + pattern.length)
decreasing_by
  all_goals
    have := readRune_width_le str
    have := readRune_width_le pattern
    simp only [s,p,List.length_drop] at *
    omega

end

mutual

def deepMatch (str pattern : List UInt8) : Bool :=
  if pattern = ['*'.toUInt8] then true
  else deepMatchLoop str (collapseStars pattern)
termination_by 2 * (str.length + pattern.length) + 1
decreasing_by
  have := length_collapseStars_le pattern
  omega

/-- The loop `for len(pattern) > 0` of `deepMatch`: a byte of either string above `0x7f`
hands the rest to `deepMatchRune`. -/
def deepMatchLoop (str pattern : List UInt8) : Bool :=
  match _hpat : pattern with
  | [] => str.length = 0
  | p₀ :: ps =>
    if p₀ > 0x7f then deepMatchRune str pattern
    else if str.head?.any (fun s₀ => s₀ > 0x7f) then deepMatchRune str pattern
    else if p₀ = '*'.toUInt8 then
      deepMatch str ps || (if _hs : str.length > 0 then deepMatch str.tail pattern else false)
    else if p₀ = '?'.toUInt8 then
      match str with
      | [] => false
      | _ :: ss => deepMatchLoop ss ps
    else
      match str with
      | [] => false
      | s₀ :: ss => if s₀ ≠ p₀ then false else deepMatchLoop ss ps
termination_by 2 * (str.length + pattern.length)
decreasing_by
  all_goals
    subst _hpat
    simp only [List.length_cons,List.length_tail]
    omega

end

set_option linter.dupNamespace false in
/-- `Match`: the string matches the pattern. -/
def Match (str pattern : List UInt8) : Bool := deepMatch str pattern

/-! ### `Allowable` -/

/-- `utf8.MaxRune`, U+10FFFF. -/
def MaxRune : Char := Char.ofNat 0x10FFFF

def maxRuneBytes : List UInt8 := String.utf8EncodeChar MaxRune

/-- `utf8.EncodeRune`: a number that is not a Unicode scalar value is written as
`RuneError`. -/
def encodeRune (r : Nat) : List UInt8 :=
  String.utf8EncodeChar (if r.isValidChar then Char.ofNat r else RuneError)

/-- The loop of `Allowable` over the pattern's bytes up to its first '*', appending to `minB`
and `maxB`; the flag is `wild`. -/
def allowableLoop (minB maxB : List UInt8) : List UInt8 → List UInt8 × List UInt8 × Bool
  | [] => (minB,maxB,false)
  | b :: rest =>
    if b = '*'.toUInt8 then (minB,maxB,true)
    else if b = '?'.toUInt8 then allowableLoop (minB ++ [0]) (maxB ++ maxRuneBytes) rest
    else allowableLoop (minB ++ [b]) (maxB ++ [b]) rest

/-- `Allowable`: the `min` and `max` of the strings that match. Before a '*' the last rune of
`max` is raised by one, unless it is `RuneError` or `MaxRune`. -/
def Allowable (pattern : List UInt8) : List UInt8 × List UInt8 :=
  match pattern with
  | [] => ([],[])
  | p₀ :: _ =>
    if p₀ = '*'.toUInt8 then ([],[])
    else
      let l := allowableLoop [] [] pattern
      let minB := l.1
      let maxB := l.2.1
      if l.2.2 then
        let d := decodeLastRune maxB
        if d.1 ≠ RuneError then
          if d.1.toNat < MaxRune.toNat then
            let r := d.1.toNat + 1
            if r > 0x7f then (minB,maxB.take (maxB.length - d.2) ++ encodeRune r)
            else (minB,maxB.take (maxB.length - d.2) ++ [r.toUInt8])
          else (minB,maxB)
        else (minB,maxB)
      else (minB,maxB)

/-- `IsPattern`: the string holds a '*' or a '?'. -/
def IsPattern (str : List UInt8) : Bool :=
  str.any (fun b => b = '*'.toUInt8 || b = '?'.toUInt8)

end Gkit.Match
