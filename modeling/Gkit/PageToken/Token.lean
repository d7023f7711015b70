import Gkit.Aes.Gcm
import Gkit.Library.Strconv

/-!
`page_token`: a `token` writes the index of the next page, with its resource and the time,
into a text sealed with AES-GCM under its salt, and `GetIndex` reads the index back from such
a text. Go strings are byte lists. What the package takes from package `time` is a
`TimeLayout`, kept abstract like the cipher: `time.Local`'s offsets and the text of the layout
"2006-01-02 15-04-05", from which `Format` and `ParseInLocation` are built as Go builds them;
the instants a call reads from `time.Now()` and the nonce it draws are the call's arguments.
-/

namespace Gkit.PageToken

open Aes Strconv

inductive TokenError where
  | ErrInvalidToken
  | ErrOverdueToken
  | ErrOverMaxPageSizeToken
  | ErrInvalidPageSize
  deriving DecidableEq, Repr

def defaultMaxIndex : Int := 0

def defaultMaxElements : Int := 0

def defaultSalt : List UInt8 := GoUtf8.encode "gkit".toList

/-- `resourceDelim`, the byte `\x1f`. -/
def resourceDelim : List UInt8 := [0x1f]

/-- `token`. Every way to build one pads its salt with `PadKey`, so the salt is a key that
`aes.NewCipher` accepts. -/
structure token where
  salt : List UInt8
  resourceIdentification : List UInt8
  /-- A `time.Duration`, in nanoseconds. -/
  timeLimitation : Int
  maxIndex : Int
  maxElements : Int
  salt_valid : ValidKeyLength salt

/-- The options of `option.go`. An `options.Option` may be any function, but only these act on
a `*token`, whose type no other package can name. -/
inductive TokenOption where
  | SetMaxIndex (max : Int)
  | SetMaxElements (max : Int)
  | SetSalt (salt : List UInt8)
  | SetTimeLimitation (d : Int)

def TokenOption.apply : TokenOption → token → token
  | .SetMaxIndex max, t => { t with maxIndex := max }
  | .SetMaxElements max, t => { t with maxElements := max }
  | .SetSalt salt, t =>
    { t with
      salt := PadKey salt
      salt_valid := padKey_valid salt }
  | .SetTimeLimitation d, t => { t with timeLimitation := d }

/-- `NewTokenGenerate`: the defaults, then the options in order. -/
def NewTokenGenerate (resourceIdentification : List UInt8) (options : List TokenOption) : token :=
  options.foldl (fun t option => option.apply t)
    { maxIndex := defaultMaxIndex
      maxElements := defaultMaxElements
      timeLimitation := 0
      salt := PadKey defaultSalt
      resourceIdentification := resourceIdentification
      salt_valid := padKey_valid defaultSalt }

/-- What the package takes from package `time`: `time.Local`'s offset east of UTC at an
instant, and the text the layout "2006-01-02 15-04-05" writes of a wall-clock time and its
reading of a text, wall-clock times in seconds since the epoch of local time. -/
structure TimeLayout where
  offset : Int → Int
  text : Int → List UInt8
  read : List UInt8 → Option Int

/-- `time.Now().Format(layout)` of the instant `now`, in nanoseconds since the epoch: its wall
clock in `time.Local`, to the second. -/
def TimeLayout.Format (tl : TimeLayout) (now : Int) : List UInt8 :=
  tl.text (now / 1000000000 + tl.offset (now / 1000000000))

/-- `time.ParseInLocation(layout, date, time.Local)`, in nanoseconds: `Date` looks the offset
up at the wall clock taken as UTC, and again at the instant that gives. -/
def TimeLayout.ParseInLocation (tl : TimeLayout) (date : List UInt8) : Option Int :=
  (tl.read date).map fun wall => (wall - tl.offset (wall - tl.offset wall)) * 1000000000

/-- The layout writes digits, '-' and ' ' only, and reads back the wall clock it wrote. -/
structure TimeLayout.Lawful (tl : TimeLayout) : Prop where
  text_bytes : ∀ wall, ∀ b ∈ tl.text wall,
    isDigit b = true ∨ b = '-'.toUInt8 ∨ b = ' '.toUInt8
  read_text : ∀ wall, tl.read (tl.text wall) = some wall

/-- `time.Local` without daylight saving: one offset at every instant. -/
def TimeLayout.FixedOffset (tl : TimeLayout) : Prop := ∀ a b, tl.offset a = tl.offset b

theorem TimeLayout.Lawful.format_bytes {tl : TimeLayout} (htl : tl.Lawful) (now : Int) :
    ∀ b ∈ tl.Format now, isDigit b = true ∨ b = '-'.toUInt8 ∨ b = ' '.toUInt8 :=
  htl.text_bytes _

/-- With one offset, a time written in the layout reads back to the start of its second: the
nanoseconds are not written. -/
theorem TimeLayout.Lawful.parse_format {tl : TimeLayout} (htl : tl.Lawful) (hfix : tl.FixedOffset)
    (now : Int) : tl.ParseInLocation (tl.Format now) = some (now - now % 1000000000) := by
  have hwall : ∀ wall, wall - tl.offset (wall - tl.offset wall) =
      wall - tl.offset (now / 1000000000) := fun wall => by
    rw [hfix (wall - tl.offset wall) (now / 1000000000)]
  rw [TimeLayout.ParseInLocation,TimeLayout.Format,htl.read_text,Option.map_some,hwall,
    Int.add_sub_cancel,Int.emod_def,Int.mul_comm]
  congr 1
  omega

/-- The seconds since the epoch in decimal, in UTC: a `TimeLayout` that meets the laws, so that
they can be met. -/
def TimeLayout.unixSeconds : TimeLayout where
  offset _ := 0
  text := Itoa
  read := parseInt

theorem TimeLayout.unixSeconds_lawful : TimeLayout.unixSeconds.Lawful where
  text_bytes _ _ hb := by
    rcases mem_itoa hb with h | h
    · exact Or.inl h
    · exact Or.inr (Or.inl h)
  read_text wall := parseInt_itoa wall

theorem TimeLayout.unixSeconds_fixedOffset : TimeLayout.unixSeconds.FixedOffset := fun _ _ => rfl

/-- The text `fmt.Sprintf("%s%s%s:%d", resource, resourceDelim, date, i)` that `ForIndex`
seals. -/
def tokenText (resource date : List UInt8) (i : Int) : List UInt8 :=
  resource ++ resourceDelim ++ date ++ ':'.toUInt8 :: Itoa i

namespace token

variable (c : Cipher) (tl : TimeLayout)

/-- `ForIndex` at the instant `now`, with the nonce `EncryptGCM` draws; an encryption error
gives the empty text. -/
def ForIndex (t : token) (now : Int) (nonce : Nonce) (i : Int) : List UInt8 :=
  match EncryptGCM c nonce (tokenText t.resourceIdentification (tl.Format now) i) t.salt with
  | .ok v => v
  | .error _ => []

/-- The `timeLimitation` check of `GetIndex` on the date part of a token. -/
def checkTime (t : token) (now : Int) (date : List UInt8) : Except TokenError Unit :=
  if t.timeLimitation ≠ 0 then
    match tl.ParseInLocation date with
    | none => .error .ErrInvalidToken
    | some generateTime =>
      -- `generateTime.Add(t.timeLimitation).Before(time.Now())`
      if generateTime + t.timeLimitation < now then .error .ErrOverdueToken else .ok ()
  else .ok ()

/-- The index part of a token: `strconv.Atoi`, then the `maxIndex` check. -/
def parseIndex (t : token) (digits : List UInt8) : Except TokenError Int :=
  match Atoi digits with
  | none => .error .ErrInvalidToken
  | some i =>
    if t.maxIndex ≠ defaultMaxIndex ∧ i > t.maxIndex then .error .ErrOverMaxPageSizeToken
    else .ok i

/-- What `GetIndex` does with the decrypted text: the resource prefix, the split on ':', the
time check and the index. -/
def readPlaintext (t : token) (now : Int) (decrypted : List UInt8) : Except TokenError Int :=
  if decrypted = [] then .error .ErrInvalidToken
  else
    let pre := t.resourceIdentification ++ resourceDelim
    if !pre.isPrefixOf decrypted then .error .ErrInvalidToken
    else
      -- `strings.Split(strings.TrimPrefix(decrypted, prefix), ":")`
      match (decrypted.drop pre.length).splitOn ':'.toUInt8 with
      | [date, digits] =>
        match t.checkTime tl now date with
        | .error e => .error e
        | .ok () => t.parseIndex digits
      | _ => .error .ErrInvalidToken

/-- `GetIndex` at the instant `now`. Go returns `-1` with each error; the `Except` keeps the
error only. -/
def GetIndex (t : token) (now : Int) (s : List UInt8) : Except TokenError Int :=
  if s = [] then .ok 0
  else
    match DecryptGCM c s t.salt with
    | .error _ => .error .ErrInvalidToken
    | .ok decrypted => t.readPlaintext tl now decrypted

/-- The `start` of `ProcessPageTokens`: `0` without a token, else the token's index, which
must lie in `[0, numElements)`. -/
def pageStart (t : token) (now numElements : Int) (pageToken : List UInt8) :
    Except TokenError Int :=
  if pageToken ≠ [] then
    match t.GetIndex c tl now pageToken with
    | .error e => .error e
    | .ok index => if index < 0 ∨ index ≥ numElements then .error .ErrInvalidToken else .ok index
  else .ok 0

/-- `ProcessPageTokens` at the instant `now`, with the nonce of the token it may write. It
returns `start`, `end` and `nextToken`. -/
def ProcessPageTokens (t : token) (now : Int) (nonce : Nonce) (numElements pageSize : Int)
    (pageToken : List UInt8) : Except TokenError (Int × Int × List UInt8) :=
  if pageSize < 0 then .error .ErrInvalidPageSize
  else
    let numElements :=
      if t.maxElements ≠ defaultMaxElements ∧ numElements > t.maxElements then t.maxElements
      else numElements
    match t.pageStart c tl now numElements pageToken with
    | .error e => .error e
    | .ok start =>
      let pageSize := if pageSize = 0 then numElements else pageSize
      -- `end`
      let stop := if pageSize > numElements - start then numElements else start + pageSize
      let nextToken := if stop < numElements then t.ForIndex c tl now nonce stop else []
      .ok (start, stop, nextToken)

end token

end Gkit.PageToken
