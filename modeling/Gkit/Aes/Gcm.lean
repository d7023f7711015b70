import Gkit.Library.GoUtf8

/-!
`encrypt/aes`: `PadKey`, and `EncryptGCM`/`DecryptGCM` of `gcm.go`. AES-GCM itself and base64
come from the Go library and stay abstract: a `Cipher` holds the four functions `gcm.go` calls,
and `Cipher.Lawful` the laws the callers rely on (`Open` inverts `Seal` under the same key and
nonce, `Seal` adds a tag of `gcmTagSize` bytes, base64 decodes what it encodes).
-/

namespace Gkit.Aes

open GoUtf8

def defaultKey : List UInt8 := encode "gkit".toList

/-- The loop `for i := ls; !(i == 16 || i == 24 || i == 32); i++` of `PadKey`, which appends
`s[idx]` and moves `idx` round `s`. It runs fewer than 32 times; `fuel` counts them. -/
def padKeyLoop (s : List UInt8) : Nat → List UInt8 → Nat → Nat → List UInt8
  | 0, ps, _, _ => ps
  | fuel + 1, ps, i, idx =>
    if i = 16 ∨ i = 24 ∨ i = 32 then ps
    else padKeyLoop s fuel (ps ++ [s.getD idx 0]) (i + 1) ((idx + 1) % s.length)

/-- `PadKey`: the text cut to 32 bytes, or repeated up to the next of 16, 24 and 32 bytes;
`defaultKey` stands for the empty text. -/
def PadKey (s : List UInt8) : List UInt8 :=
  let s := if s = [] then defaultKey else s
  if s.length > 32 then s.take 32 else padKeyLoop s 32 s s.length 0

/-- The key lengths `aes.NewCipher` accepts. -/
def ValidKeyLength (k : List UInt8) : Prop := k.length = 16 ∨ k.length = 24 ∨ k.length = 32

instance : DecidablePred ValidKeyLength := fun k =>
  inferInstanceAs (Decidable (k.length = 16 ∨ k.length = 24 ∨ k.length = 32))

/-- `NonceSize()` of `cipher.NewGCM`. -/
def gcmStandardNonceSize : Nat := 12

/-- `Overhead()` of `cipher.NewGCM`. -/
def gcmTagSize : Nat := 16

/-- The nonce `EncryptGCM` reads from `crypto/rand` into `make([]byte, aead.NonceSize())`. -/
structure Nonce where
  bytes : List UInt8
  length_bytes : bytes.length = gcmStandardNonceSize

/-- What `gcm.go` calls from the Go library: `Seal` and `Open` of AES-GCM under a key and a
nonce, and `EncodeToString` and `DecodeString` of `base64.StdEncoding`. -/
structure Cipher where
  Seal : List UInt8 → List UInt8 → List UInt8 → List UInt8
  Open : List UInt8 → List UInt8 → List UInt8 → Option (List UInt8)
  EncodeToString : List UInt8 → List UInt8
  DecodeString : List UInt8 → Option (List UInt8)

/-- The laws of the library functions that the package relies on. -/
structure Cipher.Lawful (c : Cipher) : Prop where
  open_seal : ∀ k n p, c.Open k n (c.Seal k n p) = some p
  length_seal : ∀ k n p, (c.Seal k n p).length = p.length + gcmTagSize
  decode_encode : ∀ b, c.DecodeString (c.EncodeToString b) = some b
  decode_nil : c.DecodeString [] = some []

inductive GcmError where
  /-- `aes.KeySizeError` of `aes.NewCipher`. -/
  | KeySizeError (size : Nat)
  | ErrDecryptionFailed
  deriving DecidableEq, Repr

/-- `EncryptGCM`, with the nonce that `crypto/rand` gives. -/
def EncryptGCM (c : Cipher) (nonce : Nonce) (plaintext key : List UInt8) :
    Except GcmError (List UInt8) :=
  if ValidKeyLength key then
    .ok (c.EncodeToString (nonce.bytes ++ c.Seal key nonce.bytes plaintext))
  else .error (.KeySizeError key.length)

/-- `DecryptGCM`: every failure is `ErrDecryptionFailed`. -/
def DecryptGCM (c : Cipher) (encoded key : List UInt8) : Except GcmError (List UInt8) :=
  match c.DecodeString encoded with
  | none => .error .ErrDecryptionFailed
  | some payload =>
    if ¬ValidKeyLength key then .error .ErrDecryptionFailed
    else if payload.length < gcmStandardNonceSize + gcmTagSize then .error .ErrDecryptionFailed
    else
      match c.Open key (payload.take gcmStandardNonceSize) (payload.drop gcmStandardNonceSize) with
      | none => .error .ErrDecryptionFailed
      | some plaintext => .ok plaintext

/-! ### `PadKey` -/

theorem padKeyLoop_valid (s : List UInt8) (fuel : Nat) (ps : List UInt8) (i idx : Nat)
    (hlen : ps.length = i) (hi : i ≤ 32) (hfuel : 32 - i ≤ fuel) :
    ValidKeyLength (padKeyLoop s fuel ps i idx) := by
  induction fuel generalizing ps i idx with
  | zero =>
    have : i = 32 := by omega
    exact Or.inr (Or.inr (hlen.trans this))
  | succ fuel ih =>
    rw [padKeyLoop]
    split
    · case isTrue h => rwa [ValidKeyLength,hlen]
    · case isFalse h =>
      exact ih _ _ _ (by rw [List.length_append,hlen,List.length_singleton]) (by omega) (by omega)

theorem padKey_valid (s : List UInt8) : ValidKeyLength (PadKey s) := by
  suffices h : ∀ s' : List UInt8, ValidKeyLength
      (if s'.length > 32 then s'.take 32 else padKeyLoop s' 32 s' s'.length 0) from h _
  intro s'
  split
  · case isTrue h =>
    rw [ValidKeyLength,List.length_take,Nat.min_eq_left (Nat.le_of_lt h)]
    exact Or.inr (Or.inr rfl)
  · case isFalse h => exact padKeyLoop_valid _ _ _ _ _ rfl (by omega) (by omega)

/-! ### The GCM round trip -/

section Lawful

variable {c : Cipher} (hc : c.Lawful)

theorem encryptGCM_of_valid (nonce : Nonce) (plaintext : List UInt8) {key : List UInt8}
    (hk : ValidKeyLength key) :
    EncryptGCM c nonce plaintext key =
      .ok (c.EncodeToString (nonce.bytes ++ c.Seal key nonce.bytes plaintext)) :=
  if_pos hk

include hc

/-- `DecryptGCM` opens what `EncryptGCM` sealed under the same key. -/
theorem decryptGCM_seal (nonce : Nonce) (plaintext : List UInt8) {key : List UInt8}
    (hk : ValidKeyLength key) :
    DecryptGCM c (c.EncodeToString (nonce.bytes ++ c.Seal key nonce.bytes plaintext)) key =
      .ok plaintext := by
  have hn := nonce.length_bytes
  have hlen : ¬(nonce.bytes ++ c.Seal key nonce.bytes plaintext).length <
      gcmStandardNonceSize + gcmTagSize := by
    rw [List.length_append,hc.length_seal,hn]
    omega
  have htake : (nonce.bytes ++ c.Seal key nonce.bytes plaintext).take gcmStandardNonceSize =
      nonce.bytes := by
    rw [← hn,List.take_left]
  have hdrop : (nonce.bytes ++ c.Seal key nonce.bytes plaintext).drop gcmStandardNonceSize =
      c.Seal key nonce.bytes plaintext := by
    rw [← hn,List.drop_left]
  rw [DecryptGCM,hc.decode_encode]
  dsimp only
  rw [if_neg (not_not.mpr hk),if_neg hlen,htake,hdrop,hc.open_seal]

/-- A sealed token is never the empty text: base64 of the empty text is empty, and the
payload holds the nonce. -/
theorem encodeToString_seal_ne_nil (nonce : Nonce) (key plaintext : List UInt8) :
    c.EncodeToString (nonce.bytes ++ c.Seal key nonce.bytes plaintext) ≠ [] := by
  intro h
  have hdec := hc.decode_encode (nonce.bytes ++ c.Seal key nonce.bytes plaintext)
  rw [h,hc.decode_nil,Option.some.injEq] at hdec
  have := congrArg List.length hdec
  rw [List.length_nil,List.length_append,nonce.length_bytes] at this
  exact absurd this (by unfold gcmStandardNonceSize; omega)

end Lawful

/-! ### A cipher that meets the laws -/

/-- The plaintext followed by a tag of zeros, and base64 as the identity: a `Cipher` that
satisfies `Cipher.Lawful`, so that the laws can be met. -/
def Cipher.plain : Cipher where
  Seal _ _ p := p ++ List.replicate gcmTagSize 0
  Open _ _ ct := some (ct.take (ct.length - gcmTagSize))
  EncodeToString b := b
  DecodeString b := some b

theorem Cipher.plain_lawful : Cipher.plain.Lawful where
  open_seal k n p := by
    show some ((p ++ List.replicate gcmTagSize 0).take
      ((p ++ List.replicate gcmTagSize 0).length - gcmTagSize)) = some p
    rw [List.length_append,List.length_replicate,Nat.add_sub_cancel,List.take_left]
  length_seal k n p := by
    show (p ++ List.replicate gcmTagSize 0).length = p.length + gcmTagSize
    rw [List.length_append,List.length_replicate]
  decode_encode _ := rfl
  decode_nil := rfl

end Gkit.Aes
