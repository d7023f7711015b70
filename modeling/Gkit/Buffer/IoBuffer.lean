import Gkit.Library.GoSlice

/-!
The `ioBuffer` of `cache/buffer/iobuffer.go` with the byte pool of `byte_pool.go`. The
buffer's slice is modelled with its whole backing array, so what compaction (`copy(0)`) and
reallocation (`copy(n)`, `copy(AutoExpand)`) move is visible; a slice from the pool holds
bytes of earlier users, which the model does not know (`none`). Each function returns the
run-time panic its slice expressions, `copy` and `make` would raise, and adds an `int`
argument as Go does, wrapping. Only the effect of `Free` on the buffer is modelled: the pool
itself and the buffer's pool handle and reference count are not.
-/

namespace Gkit.Buffer

open GoSlice

def AutoExpand : Int := -1
def ResetOffMark : Int := -1
def MinRead : Nat := 2 ^ 9
def MaxRead : Nat := 2 ^ 17
def DefaultSize : Nat := 2 ^ 4
def MaxBufferLength : Nat := 2 ^ 20
def MaxThreshold : Nat := 2 ^ 22

/-- `maxAlloc` of the 64-bit Go run-time: `make` panics past it. -/
def maxAlloc : Nat := 2 ^ 48

/-- `make([]byte, size)`. -/
def makeBytes (size : Int) : Except Panic (Slice UInt8) :=
  if 0 ≤ size ∧ size ≤ maxAlloc then
    .ok ⟨List.replicate size.toNat (some 0),size.toNat,Nat.le_of_eq (List.length_replicate ..).symm⟩
  else .error .makesliceLen

/-! ### The byte pool -/

def minShift : Nat := 6
def maxShift : Nat := 18
def errSlot : Int := -1

/-- The loop of `slot`: how many halvings take `size` to zero. -/
def shiftCount (size : Nat) : Nat := if size = 0 then 0 else shiftCount (size / 2) + 1
termination_by size
decreasing_by omega

/-- `bytePool.slot`: the slot of the smallest power of two from `2^minShift` on that holds
`size` bytes. -/
def slot (size : Int) : Int :=
  if size > (2 ^ maxShift : Nat) then errSlot
  else if size > (2 ^ minShift : Nat) then (shiftCount (size - 1).toNat : Int) - minShift
  else 0

/-- `GetBytes`: past the largest slot a new slice, else a slice of the slot's
`defaultSize` from the pool cut to `size`. -/
def GetBytes (size : Int) : Except Panic (Slice UInt8) :=
  if slot size = errSlot then makeBytes size
  else (⟨List.replicate (2 ^ ((slot size).toNat + minShift)) none,0,Nat.zero_le _⟩ :
    Slice UInt8).reslice size

/-! ### The buffer -/

/-- `ioBuffer`: the unread bytes are `buffer[off:]`. -/
structure IoBuffer where
  buffer : Slice UInt8
  off : Int
  offMark : Int
  eof : Bool

/-- One call of an `io.Reader`: given room for `n` bytes, the bytes it reads, at most `n`,
and whether it returns an error. -/
structure ReadCall where
  read : Nat → List UInt8 × Bool
  fits : ∀ n, (read n).1.length ≤ n

/-- The bytes `binary.BigEndian.PutUintN` writes for `v`, in `w` bytes. -/
def bigEndian (w v : Nat) : List UInt8 :=
  (List.range w).map fun k => (v >>> (8 * (w - 1 - k))).toUInt8

namespace IoBuffer

def Len (i : IoBuffer) : Int := i.buffer.len - i.off

def Bytes (i : IoBuffer) : Except Panic (List (Option UInt8)) := i.buffer.suffix i.off

def Reset (i : IoBuffer) : IoBuffer :=
  { i with buffer := ⟨i.buffer.arr,0,Nat.zero_le _⟩, off := 0, offMark := ResetOffMark, eof := false }

def Mark (i : IoBuffer) : IoBuffer := { i with offMark := i.off }

def Restore (i : IoBuffer) : IoBuffer :=
  if i.offMark ≠ ResetOffMark then { i with off := i.offMark, offMark := ResetOffMark } else i

/-- `Read` into a slice of length `p`: the buffer after it, the bytes it copied, and whether
it returned `EOF`. -/
def Read (i : IoBuffer) (p : Nat) : Except Panic (IoBuffer × List (Option UInt8) × Bool) :=
  if i.off ≥ i.buffer.len then .ok (if i.off > 0 then i.Reset else i,[],p ≠ 0)
  else do
    let src ← i.buffer.suffix i.off
    let n := min p src.length
    return ({ i with off := i.off + n },src.take n,false)

/-- `Peek`: `nil` is `none`. -/
def Peek (i : IoBuffer) (n : Int) : Except Panic (Option (List (Option UInt8))) :=
  if n < 0 then .ok none
  else if i.buffer.len - i.off < n then .ok none
  else some <$> i.buffer.view i.off (wrap (i.off + n))

def Drain (i : IoBuffer) (offset : Int) : IoBuffer :=
  if offset < 0 then i
  else if wrap (i.off + offset) > i.buffer.len then i
  else { i with off := wrap (i.off + offset), offMark := ResetOffMark }

/-- `Cup`: the buffer after it and the new buffer of the `offset` bytes cut off, `nil` when
they are not there. -/
def Cup (i : IoBuffer) (offset : Int) : Except Panic (IoBuffer × Option IoBuffer) :=
  if wrap (i.off + offset) > i.buffer.len then .ok (i,none)
  else do
    let buf ← makeBytes offset
    let src ← i.buffer.view i.off (wrap (i.off + offset))
    let (buf,_) ← buf.copyAt 0 src
    return ({ i with off := wrap (i.off + offset), offMark := ResetOffMark },some ⟨buf,0,0,false⟩)

def tryGrowByRelies (i : IoBuffer) (n : Int) : Except Panic (IoBuffer × Int × Bool) :=
  let l := i.buffer.len
  if wrap (l + n) ≤ i.buffer.cap then do
    let b ← i.buffer.reslice (wrap (l + n))
    return ({ i with buffer := b },l,true)
  else .ok (i,0,false)

/-- The capacity `copy` grows from: doubling, and past `MaxThreshold` by a quarter. -/
def growCap (c : Nat) : Nat :=
  if c < 2 * MinRead then 2 * MinRead else if c < MaxThreshold then 2 * c else c + c / 4

/-- `copy(expand)`: the unread bytes moved to the front, of a new slice from the pool when
`expand` asks for one. -/
def copy (i : IoBuffer) (expand : Int) : Except Panic IoBuffer :=
  if expand > 0 ∨ expand = AutoExpand then do
    let cap_ := growCap i.buffer.cap
    let expand := if expand = AutoExpand then 0 else expand
    let newBuf ← GetBytes (wrap (cap_ + expand))
    let src ← i.buffer.suffix i.off
    let (newBuf,_) ← newBuf.copyAt 0 src
    let b ← newBuf.reslice (i.buffer.len - i.off)
    return { i with buffer := b, off := 0 }
  else do
    let src ← i.buffer.suffix i.off
    let (newBuf,_) ← i.buffer.copyAt 0 src
    let b ← newBuf.reslice (i.buffer.len - i.off)
    return { i with buffer := b, off := 0 }

def grow (i : IoBuffer) (n : Int) : Except Panic (IoBuffer × Int) := do
  let m := i.Len
  let i := if m = 0 ∧ i.off ≠ 0 then i.Reset else i
  let (i',ret,ok) ← i.tryGrowByRelies n
  if ok then return (i',ret)
  let i ← if wrap (m + n) ≤ (i.buffer.cap / 2 : Nat) then i.copy 0 else i.copy n
  let i := { i with off := 0 }
  let b ← i.buffer.reslice (wrap (m + n))
  return ({ i with buffer := b },m)

/-- What every write does first: `tryGrowByRelies(n)`, else `grow(n)`; where the new bytes
start. -/
def reserve (i : IoBuffer) (n : Int) : Except Panic (IoBuffer × Int) := do
  let (i',m,ok) ← i.tryGrowByRelies n
  if ok then return (i',m) else i'.grow n

def Write (i : IoBuffer) (p : List UInt8) : Except Panic (IoBuffer × Nat) := do
  let (i,m) ← i.reserve p.length
  let (b,n) ← i.buffer.copyAt m (p.map some)
  return ({ i with buffer := b },n)

/-- `WriteString`: `Write`'s body on the bytes of `s`. -/
def WriteString (i : IoBuffer) (s : String) : Except Panic (IoBuffer × Nat) := i.Write s.toUTF8.toList

def WriteByte (i : IoBuffer) (p : UInt8) : Except Panic IoBuffer := do
  let (i,m) ← i.reserve 1
  if h : 0 ≤ m ∧ m.toNat < i.buffer.len then
    return { i with buffer := ⟨i.buffer.arr.set m.toNat (some p),i.buffer.len,by
      rw [List.length_set]; exact i.buffer.len_le⟩ }
  else .error .bounds

/-- `WriteUint16`, `WriteUint32` and `WriteUint64`: `PutUintN` into the `w` bytes reserved,
which panics unless `w` bytes follow `m`. -/
def writeBigEndian (i : IoBuffer) (w v : Nat) : Except Panic IoBuffer := do
  let (i,m) ← i.reserve w
  if m + w ≤ i.buffer.len then do
    let (b,_) ← i.buffer.copyAt m ((bigEndian w v).map some)
    return { i with buffer := b }
  else .error .bounds

def WriteUint16 (i : IoBuffer) (p : UInt16) : Except Panic IoBuffer := i.writeBigEndian 2 p.toNat
def WriteUint32 (i : IoBuffer) (p : UInt32) : Except Panic IoBuffer := i.writeBigEndian 4 p.toNat
def WriteUint64 (i : IoBuffer) (p : UInt64) : Except Panic IoBuffer := i.writeBigEndian 8 p.toNat

/-- `Grow`: whether it returned `ErrNegativeCount`. -/
def Grow (i : IoBuffer) (n : Int) : Except Panic (IoBuffer × Bool) :=
  if n < 0 then .ok (i,true)
  else do
    let (i,start) ← i.reserve n
    if n > 0 then
      -- `for j := start; j < len(i.buffer); j++ { i.buffer[j] = 0 }`
      if start < 0 then .error .bounds
      else
        let zeros := List.replicate (i.buffer.len - start.toNat) (some 0)
        let (b,_) ← i.buffer.copyAt start zeros
        return ({ i with buffer := b },false)
    else return (i,false)

def Append (i : IoBuffer) (data : List UInt8) : Except Panic IoBuffer := do
  let i := if i.off > 0 ∧ i.off ≥ i.buffer.len then i.Reset else i
  let dataLen := data.length
  let free : Int := i.buffer.cap - i.buffer.len
  let i ← if free < dataLen then (if i.off + free > dataLen then i.copy 0 else i.copy dataLen)
    else pure i
  -- `copy(i.buffer[len(i.buffer):len(i.buffer)+dataLen], data)`, then the slice extended by it
  let dst ← i.buffer.reslice (i.buffer.len + dataLen)
  let (b,m) ← dst.copyAt i.buffer.len (data.map some)
  let b ← b.reslice (i.buffer.len + m)
  return { i with buffer := b }

def AppendByte (i : IoBuffer) (data : UInt8) : Except Panic IoBuffer := i.Append [data]

/-- `Free` then `Alloc(size)`: the buffer emptied onto a new slice from the pool. -/
def freeAlloc (i : IoBuffer) (size : Int) : Except Panic IoBuffer := do
  let size := if size ≤ 0 then (DefaultSize : Int) else size
  let b ← GetBytes size
  let b ← b.reslice 0
  return { i.Reset with buffer := b }

/-- `ReadOnce`: the buffer after it, the count read and whether the reader failed. -/
def ReadOnce (i : IoBuffer) (r : ReadCall) : Except Panic (IoBuffer × Nat × Bool) := do
  let i := if i.off > 0 ∧ i.off ≥ i.buffer.len then i.Reset else i
  let i ← if i.off ≥ (i.buffer.cap - i.buffer.len : Int) then i.copy 0 else pure i
  let i ← if i.off = i.buffer.len ∧ i.buffer.cap > MaxBufferLength then i.freeAlloc MaxRead
    else pure i
  let l := i.buffer.cap - i.buffer.len
  let (bytes,err) := r.read l
  -- `r.Read(i.buffer[len(i.buffer):cap(i.buffer)])`, then the slice extended by what it read
  let room ← i.buffer.reslice i.buffer.cap
  let (b,m) ← room.copyAt i.buffer.len (bytes.map some)
  let b ← b.reslice (i.buffer.len + m)
  let i := { i with buffer := b }
  let i ← if l = m then i.copy AutoExpand else pure i
  return (i,m,err)

end IoBuffer

def newIoBuffer (cap : Int) : Except Panic IoBuffer := do
  let cap := if cap ≤ 0 then (DefaultSize : Int) else cap
  let b ← GetBytes cap
  let b ← b.reslice 0
  return ⟨b,0,ResetOffMark,false⟩

/-- `NewIoBufferBytes`: a `nil` slice is `none`; the slice's capacity is its length. -/
def NewIoBufferBytes (bytes : Option (List UInt8)) : Except Panic IoBuffer :=
  match bytes with
  | none => newIoBuffer 0
  | some bs => .ok ⟨⟨bs.map some,bs.length,Nat.le_of_eq (List.length_map ..).symm⟩,0,ResetOffMark,false⟩

def NewIoBufferString (s : String) : Except Panic IoBuffer :=
  if s = "" then newIoBuffer 0
  else .ok ⟨⟨s.toUTF8.toList.map some,s.toUTF8.toList.length,
    Nat.le_of_eq (List.length_map ..).symm⟩,0,
    ResetOffMark,false⟩

end Gkit.Buffer
