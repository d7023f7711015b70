import Gkit.Library.BlockStream
import Gkit.Library.Runs

/-!
`internal/wyhash`: the one-shot `Sum64StringWithSeed` of `wyhash.go` and the streaming `Digest`
of `digest.go`. A byte slice or string is a list of bytes; `runtimex.ReadUnaligned64` and
`ReadUnaligned32` are the little-endian reads of `readunaligned.go`, at an offset into the
bytes, and `bits.Mul64` is the full product. The two loops of `Sum64StringWithSeed`, over
64-byte and 16-byte blocks, are `BlockStream.absorb`. A `Digest` keeps the bytes of its buffer
that are in use, `d.data[:d.length]`; `total` is a natural number.
-/

namespace Gkit.Wyhash

open BlockStream

def DefaultSeed : UInt64 := 0xa0761d6478bd642f
def s1 : UInt64 := 0xe7037ed1a0b428db
def s2 : UInt64 := 0x8ebc6af09c88c6e3
def s3 : UInt64 := 0x589965cc75374cc3
def s4 : UInt64 := 0x1d8e4e27c47d124f

/-- `_wymix`: the high and the low word of the 128-bit product, xored. -/
def wymix (a b : UInt64) : UInt64 :=
  UInt64.ofNat (a.toNat * b.toNat / 2 ^ 64) ^^^ a * b

/-- The byte at `i`, as a `uint64`. -/
def byteAt (p : List UInt8) (i : Nat) : UInt64 := (p.getD i 0).toUInt64

/-- `runtimex.ReadUnaligned64` at offset `i`. -/
def ReadUnaligned64 (p : List UInt8) (i : Nat) : UInt64 :=
  byteAt p i ||| byteAt p (i + 1) <<< 8 ||| byteAt p (i + 2) <<< 16 ||| byteAt p (i + 3) <<< 24 |||
    byteAt p (i + 4) <<< 32 ||| byteAt p (i + 5) <<< 40 ||| byteAt p (i + 6) <<< 48 |||
    byteAt p (i + 7) <<< 56

/-- `runtimex.ReadUnaligned32` at offset `i`. -/
def ReadUnaligned32 (p : List UInt8) (i : Nat) : UInt64 :=
  byteAt p i ||| byteAt p (i + 1) <<< 8 ||| byteAt p (i + 2) <<< 16 ||| byteAt p (i + 3) <<< 24

/-- One turn of the 64-byte loop, on the lanes `seed` and `see1`. -/
def mix64 (lanes : UInt64 × UInt64) (p : List UInt8) : UInt64 × UInt64 :=
  (wymix (ReadUnaligned64 p 0 ^^^ s1) (ReadUnaligned64 p 8 ^^^ lanes.1) ^^^
      wymix (ReadUnaligned64 p 16 ^^^ s2) (ReadUnaligned64 p 24 ^^^ lanes.1),
    wymix (ReadUnaligned64 p 32 ^^^ s3) (ReadUnaligned64 p 40 ^^^ lanes.2) ^^^
      wymix (ReadUnaligned64 p 48 ^^^ s4) (ReadUnaligned64 p 56 ^^^ lanes.2))

/-- One turn of the 16-byte loop. -/
def mix16 (seed : UInt64) (p : List UInt8) : UInt64 :=
  wymix (ReadUnaligned64 p 0 ^^^ s1) (ReadUnaligned64 p 8 ^^^ seed)

/-- The end of `Sum64StringWithSeed`, which `Digest.Sum64` repeats: the 16-byte loop, then the
last at most 16 bytes by their number `i`, with the length of the whole input. -/
def finish (seed : UInt64) (p : List UInt8) (length : Nat) : UInt64 :=
  let loop := absorb 16 mix16 seed p
  let seed := loop.1
  let p := loop.2
  let i := p.length
  let len := UInt64.ofNat length
  if i = 0 then wymix s1 (wymix s1 seed)
  else if i < 4 then
    let a := byteAt p 0 <<< 16 ||| byteAt p (i >>> 1) <<< 8 ||| byteAt p (i - 1)
    wymix (s1 ^^^ len) (wymix (a ^^^ s1) seed)
  else if i = 4 then
    let a := ReadUnaligned32 p 0
    wymix (s1 ^^^ len) (wymix (a ^^^ s1) seed)
  else if i < 8 then
    let a := ReadUnaligned32 p 0
    let b := ReadUnaligned32 p (i - 4)
    wymix (s1 ^^^ len) (wymix (a ^^^ s1) (b ^^^ seed))
  else if i = 8 then
    let a := ReadUnaligned64 p 0
    wymix (s1 ^^^ len) (wymix (a ^^^ s1) seed)
  else
    let a := ReadUnaligned64 p 0
    let b := ReadUnaligned64 p (i - 8)
    wymix (s1 ^^^ len) (wymix (a ^^^ s1) (b ^^^ seed))

/-- `Sum64StringWithSeed`: above 64 bytes, the 64-byte loop on two lanes from `seed`, merged
once; then `finish`. -/
def Sum64StringWithSeed (data : List UInt8) (seed : UInt64) : UInt64 :=
  if 64 < data.length then
    let loop := absorb 64 mix64 (seed, seed) data
    finish (loop.1.1 ^^^ loop.1.2) loop.2 data.length
  else finish seed data data.length

def Sum64WithSeed (data : List UInt8) (seed : UInt64) : UInt64 := Sum64StringWithSeed data seed

def Sum64 (data : List UInt8) : UInt64 := Sum64WithSeed data DefaultSeed

/-- A `Digest`: the lanes of the 64-byte loop, the at most 64 bytes of the buffer in use, and
the number of bytes written. -/
structure Digest where
  initseed : UInt64
  seed : UInt64
  see1 : UInt64
  data : List UInt8
  total : Nat
  data_length : data.length ≤ 64

def New (seed : UInt64) : Digest := ⟨seed, seed, seed, [], 0, Nat.zero_le _⟩

namespace Digest

def Reset (d : Digest) : Digest := ⟨d.initseed, d.initseed, d.initseed, [], 0, Nat.zero_le _⟩

def SetSeed (d : Digest) (seed : UInt64) : Digest := { d with seed := seed, see1 := seed }

/-- `Write`: the input joins the buffer while the buffer holds at most 64 bytes; past that, a
partly filled buffer is completed from the input and mixed, the 64-byte loop runs on the
input, and its rest becomes the buffer. It returns `len(input)` and no error. -/
def Write (d : Digest) (input : List UInt8) : Nat × Digest :=
  let ilen := input.length
  let total := d.total + ilen
  if h : d.data.length + ilen ≤ 64 then
    (ilen, ⟨d.initseed, d.seed, d.see1, d.data ++ input, total, by
      rw [List.length_append]
      exact h⟩)
  else
    let flushed : (UInt64 × UInt64) × List UInt8 :=
      if d.data.length ≠ 0 then
        (mix64 (d.seed, d.see1) (d.data ++ input.take (64 - d.data.length)),
          input.drop (64 - d.data.length))
      else ((d.seed, d.see1), input)
    let loop := absorb 64 mix64 flushed.1 flushed.2
    -- `d.length` is `0` here: the flush set it, or it already was
    let data := if 0 < loop.2.length then loop.2 else []
    (ilen, ⟨d.initseed, loop.1.1, loop.1.2, data, total, by
      dsimp only [data]
      split
      · exact length_absorb_le _ _
      · exact Nat.zero_le _⟩)

def Sum64 (d : Digest) : UInt64 :=
  if d.total ≤ 64 then Sum64WithSeed d.data d.seed
  else finish (d.seed ^^^ d.see1) d.data d.total

/-- Writes of the chunks in order. -/
def writeAll (d : Digest) (chunks : List (List UInt8)) : Digest :=
  Runs.run (fun d input => (d.Write input).2) d chunks

/-! ### A digest against the one-shot hash -/

/-- The lanes and the buffer: what the 64-byte loop of `Sum64StringWithSeed` returns. -/
def state (d : Digest) : (UInt64 × UInt64) × List UInt8 := ((d.seed, d.see1), d.data)

@[simp] theorem state_SetSeed (d : Digest) (seed : UInt64) :
    (d.SetSeed seed).state = ((seed, seed), d.data) := rfl

@[simp] theorem initseed_Write (d : Digest) (input : List UInt8) :
    (d.Write input).2.initseed = d.initseed := by
  unfold Write
  dsimp only
  split <;> rfl

@[simp] theorem total_Write (d : Digest) (input : List UInt8) :
    (d.Write input).2.total = d.total + input.length := by
  unfold Write
  dsimp only
  split <;> rfl

theorem state_Write_of_le {d : Digest} {input : List UInt8} (h : d.data.length + input.length ≤ 64) :
    (d.Write input).2.state = ((d.seed, d.see1), d.data ++ input) := by
  unfold Write
  dsimp only
  rw [dif_pos h]
  rfl

theorem state_Write_of_lt {d : Digest} {input : List UInt8} (h : 64 < d.data.length + input.length) :
    (d.Write input).2.state =
      let flushed : (UInt64 × UInt64) × List UInt8 :=
        if d.data.length ≠ 0 then
          (mix64 (d.seed, d.see1) (d.data ++ input.take (64 - d.data.length)),
            input.drop (64 - d.data.length))
        else ((d.seed, d.see1), input)
      let loop := absorb 64 mix64 flushed.1 flushed.2
      (loop.1, if 0 < loop.2.length then loop.2 else []) := by
  unfold Write
  dsimp only
  rw [dif_neg (by omega)]
  rfl

/-- A digest has absorbed `w` from the seed `s0`: it counts the bytes of `w`, and its lanes and
buffer are where the 64-byte loop of `Sum64StringWithSeed` stands on `w`. -/
structure Absorbed (d : Digest) (s0 : UInt64) (w : List UInt8) : Prop where
  total_eq : d.total = w.length
  absorb_eq : absorb 64 mix64 (s0, s0) w = d.state

theorem absorbed_new (seed : UInt64) : (New seed).Absorbed seed [] :=
  ⟨rfl, absorb_of_le (Nat.zero_le _)⟩

theorem absorbed_reset (d : Digest) : d.Reset.Absorbed d.initseed [] :=
  ⟨rfl, absorb_of_le (Nat.zero_le _)⟩

theorem Absorbed.setSeed {d : Digest} {s0 : UInt64} (h : d.Absorbed s0 []) (seed : UInt64) :
    (d.SetSeed seed).Absorbed seed [] := by
  have hstart := h.absorb_eq
  rw [absorb_of_le (Nat.zero_le _), state, Prod.mk.injEq] at hstart
  exact ⟨h.total_eq, by rw [absorb_of_le (Nat.zero_le _), state_SetSeed, ← hstart.2]⟩

@[simp] theorem initseed_writeAll (d : Digest) : ∀ chunks, (d.writeAll chunks).initseed = d.initseed
  | [] => rfl
  | input :: chunks => by
    rw [writeAll, Runs.run_cons, ← writeAll, initseed_writeAll, initseed_Write]

/-- One `Write` keeps the digest where the loop stands on all the bytes so far: a buffer that
stays within 64 bytes is where the loop stops, and past that the loop resumes on the buffer,
whose first block is the buffer completed from the input. -/
theorem Absorbed.write {d : Digest} {s0 : UInt64} {w : List UInt8} (h : d.Absorbed s0 w)
    (input : List UInt8) : (d.Write input).2.Absorbed s0 (w ++ input) := by
  have hresume : absorb 64 mix64 (s0, s0) (w ++ input) =
      absorb 64 mix64 (d.seed, d.see1) (d.data ++ input) := by
    rw [absorb_append, h.absorb_eq, state]
  have hbuf := d.data_length
  refine ⟨by rw [total_Write, h.total_eq, List.length_append], ?_⟩
  rw [hresume]
  by_cases hfit : d.data.length + input.length ≤ 64
  case pos =>
    rw [state_Write_of_le hfit, absorb_of_le (by rw [List.length_append]; exact hfit)]
  case neg =>
    rw [state_Write_of_lt (by omega)]
    dsimp only
    by_cases hempty : d.data.length = 0
    case pos =>
      have hnil : d.data = [] := List.eq_nil_of_length_eq_zero hempty
      have hne : input ≠ [] := fun hi => hfit (by rw [hi, hnil]; decide)
      rw [if_neg (not_not.mpr hempty), hnil, List.nil_append,
        if_pos (List.length_pos_of_ne_nil (absorb_ne_nil hne))]
    case neg =>
      have hlt : 64 < (d.data ++ input).length := by rw [List.length_append]; omega
      have hne : input.drop (64 - d.data.length) ≠ [] := by
        intro hnil
        have := congrArg List.length hnil
        rw [List.length_drop, List.length_nil] at this
        omega
      rw [if_pos hempty, absorb_of_lt hlt, List.take_append, List.take_of_length_le hbuf,
        List.drop_append, List.drop_of_length_le hbuf, List.nil_append,
        if_pos (List.length_pos_of_ne_nil (absorb_ne_nil hne))]

theorem Absorbed.writeAll {d : Digest} {s0 : UInt64} {w : List UInt8} (h : d.Absorbed s0 w) :
    ∀ chunks, (d.writeAll chunks).Absorbed s0 (w ++ chunks.flatten)
  | [] => by
    rw [List.flatten_nil, List.append_nil]
    exact h
  | input :: chunks => by
    rw [Digest.writeAll, Runs.run_cons, ← Digest.writeAll, List.flatten_cons, ← List.append_assoc]
    exact (h.write input).writeAll chunks

/-- `Sum64` of a digest is the one-shot hash of what it absorbed: up to 64 bytes the buffer is
the input and the lanes the seed, and past 64 the lanes are merged as the one-shot loop merges
them. -/
theorem Absorbed.sum64 {d : Digest} {s0 : UInt64} {w : List UInt8} (h : d.Absorbed s0 w) :
    d.Sum64 = Sum64WithSeed w s0 := by
  have hloop := h.absorb_eq
  unfold Sum64 Sum64WithSeed Sum64StringWithSeed
  rw [h.total_eq]
  by_cases hw : w.length ≤ 64
  case pos =>
    rw [absorb_of_le hw, state, Prod.mk.injEq, Prod.mk.injEq] at hloop
    obtain ⟨⟨hseed, -⟩, hdata⟩ := hloop
    rw [if_pos hw, ← hseed, ← hdata, if_neg (by omega)]
  case neg =>
    rw [if_neg hw, if_pos (by omega), hloop]
    rfl

end Digest

open Digest

theorem digest_sum64_eq_oneShot (seed : UInt64) :
    (∀ chunks, ((New seed).writeAll chunks).Sum64 = Sum64WithSeed chunks.flatten seed) ∧
      ∀ chunks₀ chunks, (((New seed).writeAll chunks₀).Reset.writeAll chunks).Sum64 =
        Sum64WithSeed chunks.flatten seed := by
  refine ⟨fun chunks => ?_, fun chunks₀ chunks => ?_⟩
  · exact ((absorbed_new seed).writeAll chunks).sum64
  · -- `Reset` returns to the seed `New` was given, which no `Write` changes
    have h := (absorbed_reset ((New seed).writeAll chunks₀)).writeAll chunks
    rw [initseed_writeAll] at h
    exact h.sum64

theorem sum64_setSeed (seed₀ seed : UInt64) (chunks : List (List UInt8)) :
    (((New seed₀).SetSeed seed).writeAll chunks).Sum64 = Sum64WithSeed chunks.flatten seed :=
  (((absorbed_new seed₀).setSeed seed).writeAll chunks).sum64

end Gkit.Wyhash
