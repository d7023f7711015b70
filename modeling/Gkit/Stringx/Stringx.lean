import Gkit.Library.GoUtf8
import Gkit.Library.GoSlice

/-!
`Sub`, `SubStart`, `Rotate` and `Reverse` of `sys/stringx/stringx.go`. A string is its bytes,
an `int` is an integer that Go's additions wrap (`GoSlice.wrap`), and `%` on `int`s is the
truncating `Int.tmod`. `strings.Builder.WriteRune` appends a rune's encoding.
-/

namespace Gkit.Stringx

open GoUtf8 GoSlice

/-- `math.MaxInt` on a 64-bit target. -/
def MaxInt : Int := 2 ^ 63 - 1

/-- The loop of `sub`: `for _, v := range s`, counting runes in `runeIndex`, that stops at
`end` and writes the runes from `start` on. -/
def collect (start «end» : Int) : Nat → List Char → List Char
  | _, [] => []
  | runeIndex, v :: vs =>
    if (runeIndex : Int) ≥ «end» then []
    else (if (runeIndex : Int) ≥ start then [v] else []) ++ collect start «end» (runeIndex + 1) vs

def sub (s : List UInt8) (start «end» : Int) : List UInt8 :=
  if s = [] then []
  else
    let unicodeLen : Int := runeCount s
    let «end» := if «end» < 0 then wrap («end» + unicodeLen) else «end»
    let «end» := if «end» > unicodeLen then unicodeLen else «end»
    let start := if start < 0 then wrap (start + unicodeLen) else start
    if start > «end» then []
    else
      let start := if start < 0 then 0 else start
      let «end» := if «end» < 0 then 0 else «end»
      if start = 0 ∧ «end» = unicodeLen then s
      else encode (collect start «end» 0 (runes s))

def Sub (s : List UInt8) (start «end» : Int) : List UInt8 := sub s start «end»

def SubStart (s : List UInt8) (start : Int) : List UInt8 := sub s start MaxInt

def Rotate (s : List UInt8) (shift : Int) : List UInt8 :=
  if shift = 0 then s
  else
    let sLen := runeCount s
    if sLen = 0 then s
    else
      let shiftMod := shift.tmod sLen
      if shiftMod = 0 then s
      else
        let offset := wrap (-shiftMod)
        SubStart s offset ++ Sub s 0 offset

/-- The errors of the package. -/
inductive Error
  | ErrDecodeRune
deriving DecidableEq, Repr

/-- `utf8.EncodeRune(dst[i:], r)`: the rune's bytes written from `i`. -/
def encodeRuneAt (dst : List UInt8) (i : Nat) (r : Char) : List UInt8 :=
  dst.take i ++ String.utf8EncodeChar r ++ dst.drop (i + r.utf8Size)

/-- The loop of `Reverse`: the last rune of `src[:srcIndex]` is written at `dstIndex`, and a
`RuneError` stops it with `ErrDecodeRune`. -/
def reverseLoop (src dst : List UInt8) (dstIndex srcIndex : Nat) : List UInt8 × Option Error :=
  if h0 : srcIndex = 0 then (dst,none)
  else
    let d := decodeLastRune (src.take srcIndex)
    if hr : d.1 = RuneError then (dst,some .ErrDecodeRune)
    else reverseLoop src (encodeRuneAt dst dstIndex d.1) (dstIndex + d.2) (srcIndex - d.2)
termination_by srcIndex
decreasing_by
  -- no bytes decode to `RuneError`, so a rune was found and it has a width
  have hne : src.take srcIndex ≠ [] := by
    intro hnil
    apply hr
    show (decodeLastRune (src.take srcIndex)).1 = RuneError
    rw [hnil]
    rfl
  have := decodeLastRune_width_pos hne
  omega

/-- `Reverse`: the reversed string, and `ErrDecodeRune` with what was written so far when a
rune does not decode. -/
def Reverse (s : List UInt8) : List UInt8 × Option Error :=
  if s = [] then (s,none)
  else reverseLoop s (List.replicate s.length 0) 0 s.length

end Gkit.Stringx
