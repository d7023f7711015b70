import Gkit.Buffer.IoBuffer

/-!
The `ioBuffer` as a byte queue. Its unread bytes are `buffer[off:]` (`IoBuffer.contents`);
each operation on a well-formed buffer (`IoBuffer.Wf`) adds at the back or takes from the
front of them as a queue does, whichever of compaction, reallocation or a reset it goes
through, and no byte the buffer did not write reaches them. `Cup` alone does not check its
count before it allocates, and panics on a negative one.
-/

namespace Gkit.Buffer

open GoSlice

/-! ### The pool -/

theorem lt_two_pow_shiftCount (n : Nat) : n < 2 ^ shiftCount n := by
  induction n using Nat.strongRecOn with
  | ind n ih =>
    rw [shiftCount]
    split_ifs with hn
    · omega
    · have := ih (n / 2) (by omega)
      rw [Nat.pow_succ]
      omega

theorem shiftCount_le {k : Nat} : ∀ {n : Nat}, n < 2 ^ k → shiftCount n ≤ k := by
  induction k with
  | zero =>
    intro n hn
    have hn0 : n = 0 := by omega
    subst hn0
    exact Nat.le_of_eq (by rw [shiftCount,if_pos rfl])
  | succ k ih =>
    intro n hn
    rw [shiftCount]
    split_ifs with h0
    · omega
    · rw [Nat.pow_succ] at hn
      have := ih (n := n / 2) (by omega)
      omega

theorem le_shiftCount {k : Nat} : ∀ {n : Nat}, 2 ^ k ≤ n → k + 1 ≤ shiftCount n := by
  induction k with
  | zero =>
    intro n hn
    rw [shiftCount,if_neg (by omega)]
    omega
  | succ k ih =>
    intro n hn
    rw [shiftCount,if_neg (by have := Nat.one_le_two_pow (n := k + 1); omega)]
    rw [Nat.pow_succ] at hn
    have := ih (n := n / 2) (by omega)
    omega

/-- `GetBytes` of a size the run-time allocates: a slice of that length, no larger than an
allocation. -/
theorem GetBytes_ok (size : Int) (h0 : 0 ≤ size) (hmax : size ≤ maxAlloc) :
    ∃ s, GetBytes size = .ok s ∧ s.len = size.toNat ∧ size.toNat ≤ s.cap ∧ s.cap ≤ maxAlloc := by
  unfold GetBytes
  split_ifs with hslot
  · unfold makeBytes
    rw [if_pos ⟨h0,hmax⟩]
    exact ⟨_,rfl,rfl,by simp [Slice.cap],by simp [Slice.cap]; omega⟩
  · -- a slot's slice: a power of two from `2^6` to `2^18` that holds `size`
    have hsmall : size ≤ (2 ^ maxShift : Nat) := by
      unfold slot at hslot
      by_contra hc
      exact hslot (if_pos (by omega))
    have hpow : size.toNat ≤ 2 ^ ((slot size).toNat + minShift) ∧
        2 ^ ((slot size).toNat + minShift) ≤ 2 ^ maxShift := by
      unfold slot minShift maxShift at *
      by_cases hbig : size > ((2 : Nat) ^ 6 : Nat)
      · rw [if_neg (by omega),if_pos hbig]
        have hlt := lt_two_pow_shiftCount (size - 1).toNat
        have hle := shiftCount_le (k := 18) (n := (size - 1).toNat) (by omega)
        have hge := le_shiftCount (k := 6) (n := (size - 1).toNat) (by omega)
        rw [show ((shiftCount (size - 1).toNat : Int) - (6 : Nat)).toNat + 6 =
          shiftCount (size - 1).toNat by omega]
        exact ⟨by omega,Nat.pow_le_pow_right (by omega) hle⟩
      · rw [if_neg (by omega),if_neg hbig]
        exact ⟨by simp; omega,by decide⟩
    obtain ⟨t,ht,harr,hlen⟩ := Slice.reslice_ok (s := ⟨List.replicate (2 ^ ((slot size).toNat +
      minShift)) none,0,Nat.zero_le _⟩) h0 (by simp only [Slice.cap,List.length_replicate]; omega)
    refine ⟨t,ht,hlen,?_,?_⟩
    · rw [Slice.cap,harr,List.length_replicate]
      exact hpow.1
    · rw [Slice.cap,harr,List.length_replicate]
      unfold maxAlloc maxShift at *
      exact Nat.le_trans hpow.2 (by decide)

namespace IoBuffer

/-- The unread bytes. -/
def contents (i : IoBuffer) : List (Option UInt8) := i.buffer.elems.drop i.off.toNat

/-- A buffer the operations keep: the read offset within the slice, and the slice no larger
than an allocation. -/
structure Wf (i : IoBuffer) : Prop where
  off_nonneg : 0 ≤ i.off
  off_le : i.off ≤ i.buffer.len
  cap_le : i.buffer.cap ≤ maxAlloc

theorem Wf.len_le_cap {i : IoBuffer} (_ : i.Wf) : i.buffer.len ≤ i.buffer.cap := i.buffer.len_le

theorem Wf.bytes {i : IoBuffer} (h : i.Wf) : i.Bytes = .ok i.contents :=
  Slice.suffix_ok h.off_nonneg h.off_le

theorem Wf.length_contents {i : IoBuffer} (h : i.Wf) : (i.contents.length : Int) = i.Len := by
  have := h.off_nonneg
  have := h.off_le
  unfold contents Len
  rw [List.length_drop,Slice.length_elems]
  omega

/-- An `int` sum of the offset and a count within the buffer does not wrap. -/
theorem Wf.wrap_off_add {i : IoBuffer} (h : i.Wf) {k : Int} (hlo : -2 ^ 63 ≤ k)
    (hhi : k < 2 ^ 62) : wrap (i.off + k) = i.off + k := by
  have := h.off_nonneg
  have := h.off_le
  have := h.len_le_cap
  have := h.cap_le
  unfold maxAlloc at *
  exact wrap_of_lt (by omega) (by omega)

theorem view_eq_take {arr : List (Option UInt8)} {off n : Nat} (len : Nat) (h : off + n ≤ len) :
    (arr.take (off + n)).drop off = ((arr.take len).drop off).take n := by
  rw [List.take_drop,List.take_take]
  congr 2
  omega

/-! ### Taking from the front -/

theorem Wf.drain {i : IoBuffer} (h : i.Wf) {k : Int} (h0 : 0 ≤ k) (hk : k ≤ i.Len) :
    (i.Drain k).Wf ∧ (i.Drain k).contents = i.contents.drop k.toNat := by
  have := h.off_nonneg
  have := h.len_le_cap
  have := h.cap_le
  unfold Len maxAlloc at *
  unfold Drain
  rw [if_neg (by omega),h.wrap_off_add (by omega) (by omega),if_neg (by omega)]
  refine ⟨⟨by dsimp only; omega,by dsimp only; omega,h.cap_le⟩,?_⟩
  unfold contents
  dsimp only
  rw [List.drop_drop]
  congr 1
  omega

theorem Wf.drain_out {i : IoBuffer} (h : i.Wf) {k : Int} (hk : k < 0 ∨ (i.Len < k ∧ k < 2 ^ 62)) :
    i.Drain k = i := by
  have := h.off_nonneg
  have := h.off_le
  unfold Drain
  rcases hk with hneg | ⟨hlt,hhi⟩
  · rw [if_pos hneg]
  · unfold Len at hlt
    rw [if_neg (by omega),h.wrap_off_add (by omega) hhi,if_pos (by omega)]

theorem Wf.peek {i : IoBuffer} (h : i.Wf) {n : Int} (hn : n < 2 ^ 62) :
    i.Peek n = .ok (if 0 ≤ n ∧ n ≤ i.Len then some (i.contents.take n.toNat) else none) := by
  have := h.off_nonneg
  have := h.len_le_cap
  unfold Len at *
  unfold Peek
  by_cases hneg : n < 0
  · rw [if_pos hneg,if_neg (by omega)]
  · by_cases hlt : (i.buffer.len : Int) - i.off < n
    · rw [if_neg hneg,if_pos hlt,if_neg (by omega)]
    · rw [if_neg hneg,if_neg hlt,if_pos (by omega),h.wrap_off_add (by omega) hn,
        Slice.view_ok h.off_nonneg (by omega) (by omega)]
      unfold contents Slice.elems
      rw [show (i.off + n).toNat = i.off.toNat + n.toNat by omega,view_eq_take i.buffer.len (by omega)]
      rfl

/-- `Read` into `p` bytes takes the first `p` unread ones, and returns `EOF` for an empty
buffer and a slice with room. -/
theorem Wf.read {i : IoBuffer} (h : i.Wf) (p : Nat) :
    ∃ i' bytes eof, i.Read p = .ok (i',bytes,eof) ∧ i'.Wf ∧ bytes = i.contents.take p ∧
      i'.contents = i.contents.drop p ∧ (eof = true ↔ i.Len = 0 ∧ p ≠ 0) := by
  have := h.off_nonneg
  have := h.off_le
  have hlen := h.length_contents
  unfold Len at *
  unfold Read
  by_cases hend : i.off ≥ i.buffer.len
  · -- nothing unread: the buffer is reset when its offset moved
    have hnil : i.contents = [] := List.eq_nil_of_length_eq_zero (by omega)
    rw [if_pos hend,hnil]
    refine ⟨_,_,_,rfl,?_,(List.take_nil).symm,?_,by simp; omega⟩
    · split_ifs
      · exact ⟨Int.le_refl 0,by simp [Reset],by simpa [Reset,Slice.cap] using h.cap_le⟩
      · exact h
    · split_ifs
      · simp [contents,Reset,Slice.elems]
      · simp [hnil]
  · rw [if_neg hend,Slice.suffix_ok h.off_nonneg h.off_le,ok_bind]
    refine ⟨_,_,_,rfl,⟨by dsimp only; omega,?_,h.cap_le⟩,?_,?_,by simp; omega⟩
    · dsimp only
      have : (i.buffer.elems.drop i.off.toNat).length = i.buffer.len - i.off.toNat := by
        rw [List.length_drop,Slice.length_elems]
      omega
    · show List.take (min p i.contents.length) i.contents = List.take p i.contents
      by_cases hp : p ≤ i.contents.length
      · rw [Nat.min_eq_left hp]
      · rw [Nat.min_eq_right (by omega),List.take_length,List.take_of_length_le (by omega)]
    · unfold contents
      dsimp only
      rw [List.drop_drop]
      have : (i.buffer.elems.drop i.off.toNat).length = i.buffer.len - i.off.toNat := by
        rw [List.length_drop,Slice.length_elems]
      by_cases hp : p ≤ i.buffer.len - i.off.toNat
      · rw [show (i.off + ((min p (List.drop i.off.toNat i.buffer.elems).length : Nat) : Int)).toNat =
          i.off.toNat + p by omega]
      · rw [List.drop_of_length_le (by rw [Slice.length_elems]; omega),
          List.drop_of_length_le (by rw [Slice.length_elems]; omega)]

/-! ### `Cup` -/

theorem Wf.cup {i : IoBuffer} (h : i.Wf) {k : Int} (h0 : 0 ≤ k) (hk : k ≤ i.Len) :
    ∃ i' c, i.Cup k = .ok (i',some c) ∧ i'.Wf ∧ i'.contents = i.contents.drop k.toNat ∧
      c.Wf ∧ c.contents = i.contents.take k.toNat := by
  have := h.off_nonneg
  have := h.len_le_cap
  have := h.cap_le
  unfold Len maxAlloc at *
  unfold Cup
  rw [h.wrap_off_add (by omega) (by omega),if_neg (by omega)]
  unfold makeBytes
  rw [if_pos ⟨h0,by unfold maxAlloc; omega⟩,ok_bind,
    Slice.view_ok h.off_nonneg (by omega) (by unfold Slice.cap at *; omega),ok_bind]
  have hsrc : (i.buffer.arr.take (i.off + k).toNat).drop i.off.toNat = i.contents.take k.toNat := by
    unfold contents Slice.elems
    rw [show (i.off + k).toNat = i.off.toNat + k.toNat by omega,view_eq_take i.buffer.len (by omega)]
  rw [hsrc]
  have hlenc : (i.contents.take k.toNat).length = k.toNat := by
    rw [List.length_take,Nat.min_eq_left (by have := h.length_contents; unfold Len at *; omega)]
  obtain ⟨t,ht,harr,hlen⟩ := Slice.copyAt_ok (s := ⟨List.replicate k.toNat (some 0),k.toNat,
    Nat.le_of_eq (List.length_replicate ..).symm⟩) (i.contents.take k.toNat) (Int.le_refl 0) (by omega)
  rw [ht,ok_bind]
  dsimp only at harr hlen
  have htarr : t.arr = i.contents.take k.toNat := by
    rw [harr]
    simp only [Slice.overwrite,Int.toNat_zero,List.take_zero,List.nil_append,Nat.sub_zero,
      Nat.zero_add]
    rw [List.take_of_length_le (by omega),hlenc,List.drop_of_length_le (by simp),List.append_nil]
  refine ⟨_,_,rfl,⟨by dsimp only; omega,by dsimp only; omega,h.cap_le⟩,?_,
    ⟨Int.le_refl 0,by simp,?_⟩,?_⟩
  · unfold contents
    dsimp only
    rw [List.drop_drop]
    congr 1
    omega
  · dsimp only
    rw [Slice.cap,htarr,hlenc]
    unfold maxAlloc
    omega
  · unfold contents Slice.elems
    dsimp only
    rw [htarr,hlen,Int.toNat_zero,List.drop_zero,List.take_of_length_le (by omega)]
    rfl

/-- `Cup` checks only that the count does not run past the written bytes, so a negative count
reaches `make([]byte, offset)` and panics there. -/
theorem cup_negative_panics {i : IoBuffer} (h : i.Wf) {offset : Int} (hlo : -2 ^ 63 ≤ offset)
    (hneg : offset < 0) : i.Cup offset = .error .makesliceLen := by
  have hoff := h.off_le
  unfold Cup
  rw [h.wrap_off_add hlo (by omega),if_neg (by omega)]
  unfold makeBytes
  rw [if_neg (by omega),error_bind]

/-- `Cup(-1)` on the buffer of "abcdef" panics. -/
theorem cup_negative_panics_abcdef :
    ∃ i, NewIoBufferBytes (some [97,98,99,100,101,102]) = .ok i ∧ i.Wf ∧
      i.Cup (-1) = .error .makesliceLen := by
  have hw : IoBuffer.Wf ⟨⟨[97,98,99,100,101,102].map some,6,by decide⟩,0,ResetOffMark,false⟩ :=
    ⟨by decide,by decide,by decide⟩
  exact ⟨_,rfl,hw,cup_negative_panics hw (by decide) (by decide)⟩

/-! ### Making room -/

theorem le_growCap (c : Nat) : c ≤ growCap c := by
  unfold growCap
  split_ifs <;> omega

theorem growCap_le (c : Nat) : growCap c ≤ 2 * c + 2 * MinRead := by
  unfold growCap
  split_ifs <;> omega

theorem overwrite_reserved {arr : List (Option UInt8)} {m off len : Nat} {xs : List (Option UInt8)}
    (hm : m ≤ arr.length) (hlen : len = m + xs.length) (hoff : off ≤ m) :
    ((Slice.overwrite arr m xs).take len).drop off = (arr.take m).drop off ++ xs := by
  have hnil : (arr.take (m + xs.length)).drop (m + xs.length) = [] :=
    List.drop_eq_nil_of_le (by rw [List.length_take]; omega)
  rw [Slice.take_overwrite hm (by omega),hlen,hnil,List.append_nil,List.drop_append_of_le_length
    (by rw [List.length_take]; omega)]

theorem Wf.tryGrow_fit {i : IoBuffer} (h : i.Wf) {n : Int} (h0 : 0 ≤ n) (hn : n < 2 ^ 62)
    (hfit : i.buffer.len + n ≤ i.buffer.cap) :
    ∃ b, i.tryGrowByRelies n = .ok ({ i with buffer := b },i.buffer.len,true) ∧
      b.arr = i.buffer.arr ∧ b.len = i.buffer.len + n.toNat := by
  have := h.len_le_cap
  have := h.cap_le
  unfold maxAlloc at *
  unfold tryGrowByRelies
  dsimp only
  rw [wrap_of_lt (by omega) (by omega),if_pos hfit]
  obtain ⟨b,hb,harr,hlen⟩ := Slice.reslice_ok (s := i.buffer) (by omega) hfit
  rw [hb,ok_bind]
  exact ⟨b,rfl,harr,by rw [hlen]; omega⟩

theorem Wf.tryGrow_fail {i : IoBuffer} (h : i.Wf) {n : Int} (h0 : 0 ≤ n) (hn : n < 2 ^ 62)
    (hfail : i.buffer.cap < i.buffer.len + n) : i.tryGrowByRelies n = .ok (i,0,false) := by
  have := h.len_le_cap
  have := h.cap_le
  unfold maxAlloc at *
  unfold tryGrowByRelies
  dsimp only
  rw [wrap_of_lt (by omega) (by omega),if_neg (by omega)]

/-- Reslicing a slice that holds `xs` first to make room for `n` more. -/
theorem reslice_room {b : Slice UInt8} {xs : List (Option UInt8)} (hxs : b.elems = xs)
    (hlen : b.len = xs.length) {n : Nat} (hfit : xs.length + n ≤ b.cap) :
    ∃ b', b.reslice ((xs.length : Int) + n) = .ok b' ∧ b'.arr = b.arr ∧
      b'.len = xs.length + n ∧ b'.elems.take xs.length = xs := by
  obtain ⟨b',hb,harr,hl⟩ := Slice.reslice_ok (s := b) (k := (xs.length : Int) + n) (by omega)
    (by omega)
  refine ⟨b',hb,harr,by rw [hl]; omega,?_⟩
  unfold Slice.elems at *
  rw [harr,hl,List.take_take,show min xs.length (((xs.length : Int) + n).toNat) = b.len by omega,hxs]

theorem Wf.copy_zero {i : IoBuffer} (h : i.Wf) :
    ∃ b, i.copy 0 = .ok { i with buffer := b, off := 0 } ∧ b.elems = i.contents ∧
      b.len = i.contents.length ∧ b.cap = i.buffer.cap := by
  have := h.off_nonneg
  have := h.off_le
  have hle := i.buffer.len_le
  have hc := h.length_contents
  unfold Len at hc
  unfold copy
  rw [if_neg (by unfold AutoExpand; omega),Slice.suffix_ok h.off_nonneg h.off_le,ok_bind]
  obtain ⟨t,ht,harr,hlen⟩ := Slice.copyAt_ok (s := i.buffer) (i.buffer.elems.drop i.off.toNat)
    (Int.le_refl 0) (by omega)
  rw [ht,ok_bind]
  dsimp only
  have hsrc : (i.buffer.elems.drop i.off.toNat).take (i.buffer.len - Int.toNat 0) = i.contents := by
    rw [List.take_of_length_le (by rw [List.length_drop,Slice.length_elems]; omega)]
    rfl
  rw [hsrc] at harr
  have htlen : t.arr.length = i.buffer.arr.length := by
    rw [harr,Slice.length_overwrite (by rw [Int.toNat_zero]; omega)]
  obtain ⟨b,hb,hbarr,hblen⟩ := Slice.reslice_ok (s := t) (k := i.buffer.len - i.off) (by omega)
    (by rw [Slice.cap,htlen]; omega)
  rw [hb,ok_bind]
  refine ⟨b,rfl,?_,by rw [hblen]; omega,?_⟩
  · unfold Slice.elems
    rw [hbarr,harr,hblen,Slice.overwrite,Int.toNat_zero,List.take_zero,List.nil_append,
      List.take_append_of_le_length (by omega),List.take_of_length_le (by omega)]
  · rw [Slice.cap,hbarr,htlen]
    rfl

/-- `copy(expand)` for an `expand` that reallocates: the unread bytes at the front of a new
slice of at least `growCap cap + expand` bytes. -/
theorem Wf.copy_grow {i : IoBuffer} (h : i.Wf) {e : Nat}
    (hsize : growCap i.buffer.cap + e ≤ maxAlloc) :
    ∃ b, i.copy (if e = 0 then AutoExpand else e) = .ok { i with buffer := b, off := 0 } ∧
      b.elems = i.contents ∧ b.len = i.contents.length ∧ growCap i.buffer.cap + e ≤ b.cap ∧
      b.cap ≤ maxAlloc := by
  have := h.off_nonneg
  have := h.off_le
  have := h.len_le_cap
  have hc := h.length_contents
  have hg := le_growCap i.buffer.cap
  unfold Len at hc
  unfold copy
  have hexp : (if e = 0 then AutoExpand else (e : Int)) > 0 ∨ (if e = 0 then AutoExpand else (e : Int)) = AutoExpand := by
    split_ifs <;> unfold AutoExpand <;> omega
  have hext : (if (if e = 0 then AutoExpand else (e : Int)) = AutoExpand then 0 else
      (if e = 0 then AutoExpand else (e : Int))) = e := by
    split_ifs <;> unfold AutoExpand at * <;> omega
  rw [if_pos hexp]
  dsimp only
  rw [hext,wrap_of_lt (by omega) (by unfold maxAlloc at hsize; omega)]
  obtain ⟨s,hs,hslen,hscap,hsmax⟩ := GetBytes_ok (growCap i.buffer.cap + e) (by omega)
    (by omega)
  rw [hs,ok_bind,Slice.suffix_ok h.off_nonneg h.off_le,ok_bind]
  obtain ⟨t,ht,harr,hlen⟩ := Slice.copyAt_ok (s := s) (i.buffer.elems.drop i.off.toNat)
    (Int.le_refl 0) (by omega)
  rw [ht,ok_bind]
  dsimp only
  have hsrc : (i.buffer.elems.drop i.off.toNat).take (s.len - Int.toNat 0) = i.contents := by
    rw [List.take_of_length_le (by rw [List.length_drop,Slice.length_elems]; omega)]
    rfl
  rw [hsrc] at harr
  have htcap : t.cap = s.cap := by
    rw [Slice.cap,harr,Slice.length_overwrite (by rw [Int.toNat_zero]; unfold Slice.cap at *; omega)]
    rfl
  obtain ⟨b,hb,hbarr,hblen⟩ := Slice.reslice_ok (s := t) (k := i.buffer.len - i.off) (by omega)
    (by rw [htcap]; omega)
  rw [hb,ok_bind]
  have hbcap : b.cap = s.cap := by rw [← htcap]; exact congrArg List.length hbarr
  refine ⟨b,rfl,?_,by rw [hblen]; omega,by rw [hbcap]; omega,by rw [hbcap]; exact hsmax⟩
  unfold Slice.elems
  rw [hbarr,harr,hblen,Slice.overwrite,Int.toNat_zero,List.take_zero,List.nil_append,
    List.take_append_of_le_length (by omega),List.take_of_length_le (by omega)]

theorem Wf.reset {i : IoBuffer} (h : i.Wf) : i.Reset.Wf :=
  ⟨Int.le_refl 0,by simp [Reset],h.cap_le⟩

@[simp] theorem contents_reset (i : IoBuffer) : i.Reset.contents = [] := by
  simp [contents,Reset,Slice.elems]

/-- The end of `grow`, after the copy: the slice cut to the unread bytes and the room. -/
theorem grow_tail {b : Slice UInt8} {xs : List (Option UInt8)} {n : Nat} (om : Int) (e : Bool)
    (hxs : b.elems = xs) (hlen : b.len = xs.length) (hfit : xs.length + n ≤ b.cap)
    (hmax : b.cap ≤ maxAlloc) :
    ∃ i', (do
        let b' ← b.reslice ((xs.length : Int) + n)
        pure ((⟨b',0,om,e⟩ : IoBuffer),(xs.length : Int)) : Except Panic (IoBuffer × Int)) =
          .ok (i',xs.length) ∧
      i'.Wf ∧ i'.off = 0 ∧ i'.buffer.len = xs.length + n ∧ i'.buffer.elems.take xs.length = xs := by
  obtain ⟨b',hb,harr,hl,htake⟩ := reslice_room hxs hlen hfit
  rw [hb,ok_bind]
  refine ⟨_,rfl,⟨Int.le_refl 0,by dsimp only; omega,?_⟩,rfl,hl,htake⟩
  show b'.arr.length ≤ maxAlloc
  rw [harr]
  exact hmax

/-- `grow(n)` after `tryGrowByRelies(n)` failed: the unread bytes at the front, with room for
`n` more after them. -/
theorem Wf.grow {i : IoBuffer} (h : i.Wf) {n : Nat} (hn : n ≤ 2 ^ 45) (hcap : i.buffer.cap ≤ 2 ^ 45)
    (hfail : i.buffer.cap < i.buffer.len + n) :
    ∃ i', i.grow n = .ok (i',i.contents.length) ∧ i'.Wf ∧ i'.off = 0 ∧
      i'.buffer.len = i.contents.length + n ∧ i'.buffer.elems.take i.contents.length = i.contents := by
  have hlc := h.length_contents
  have := h.off_nonneg
  have := h.off_le
  have := h.len_le_cap
  have hg := growCap_le i.buffer.cap
  have hm : i.Len = ((i.contents.length : Nat) : Int) := hlc.symm
  unfold Len at hlc
  unfold MinRead at hg
  unfold IoBuffer.grow
  dsimp only
  rw [hm]
  by_cases hr : ((i.contents.length : Nat) : Int) = 0 ∧ i.off ≠ 0
  · -- nothing unread: the buffer is reset first
    have hnil : i.contents = [] := List.eq_nil_of_length_eq_zero (by omega)
    have hl0 : i.contents.length = 0 := by rw [hnil]; rfl
    have hR := h.reset
    have hRlen : i.Reset.buffer.len = 0 := rfl
    have hRcap : i.Reset.buffer.cap = i.buffer.cap := rfl
    have hRoff : i.Reset.off = 0 := rfl
    rw [if_pos hr]
    by_cases hfit : (n : Int) ≤ i.buffer.cap
    · obtain ⟨b,hb,harr,hlen⟩ := hR.tryGrow_fit (n := n) (by omega) (by omega)
        (by rw [hRlen,hRcap]; omega)
      rw [hb,ok_bind]
      dsimp only
      rw [if_pos rfl,hnil]
      refine ⟨_,rfl,⟨Int.le_refl 0,by dsimp only; rw [hRoff]; omega,?_⟩,rfl,?_,by simp⟩
      · show b.arr.length ≤ maxAlloc
        rw [harr]
        exact h.cap_le
      · dsimp only
        rw [hlen,hRlen]
        rfl
    · rw [hR.tryGrow_fail (n := n) (by omega) (by omega) (by rw [hRlen,hRcap]; omega),ok_bind]
      dsimp only
      rw [if_neg (by simp),wrap_of_lt (x := i.contents.length + n) (by omega) (by omega),hRcap,
        if_neg (by omega)]
      obtain ⟨b,hb,hxs,hblen,hbcap,hbmax⟩ := hR.copy_grow (e := n)
        (by rw [hRcap]; unfold maxAlloc; omega)
      rw [if_neg (by omega)] at hb
      rw [hb,ok_bind]
      dsimp only
      rw [contents_reset] at hxs hblen
      rw [hRcap] at hbcap
      rw [hnil]
      refine grow_tail _ _ hxs hblen ?_ hbmax
      simp only [List.length_nil]
      omega
  · rw [if_neg hr,h.tryGrow_fail (n := n) (by omega) (by omega) (by omega),ok_bind]
    dsimp only
    rw [if_neg (by simp),wrap_of_lt (x := i.contents.length + n) (by omega)
      (by have := h.cap_le; unfold maxAlloc at *; omega)]
    by_cases hhalf : ((i.contents.length : Nat) : Int) + n ≤ ((i.buffer.cap / 2 : Nat) : Int)
    · -- the unread bytes and the room fit in half the slice: compaction
      rw [if_pos hhalf]
      obtain ⟨b,hb,hxs,hblen,hbcap⟩ := h.copy_zero
      rw [hb,ok_bind]
      dsimp only
      exact grow_tail _ _ hxs hblen (by omega) (by rw [hbcap]; exact h.cap_le)
    · rw [if_neg hhalf]
      by_cases hn0 : n = 0
      · subst hn0
        obtain ⟨b,hb,hxs,hblen,hbcap⟩ := h.copy_zero
        rw [Int.natCast_zero,hb,ok_bind]
        dsimp only
        exact grow_tail _ _ hxs hblen (by omega) (by rw [hbcap]; exact h.cap_le)
      · -- a new slice from the pool
        obtain ⟨b,hb,hxs,hblen,hbcap,hbmax⟩ := h.copy_grow (e := n) (by unfold maxAlloc; omega)
        rw [if_neg hn0] at hb
        rw [hb,ok_bind]
        dsimp only
        exact grow_tail _ _ hxs hblen (by have := le_growCap i.buffer.cap; omega) hbmax

/-- The room every write makes for `n` bytes: where it starts, after the unread bytes. -/
theorem Wf.reserve {i : IoBuffer} (h : i.Wf) {n : Nat} (hn : n ≤ 2 ^ 45)
    (hcap : i.buffer.cap ≤ 2 ^ 45) :
    ∃ i' m, i.reserve n = .ok (i',m) ∧ i'.Wf ∧ 0 ≤ m ∧ i'.off ≤ m ∧
      i'.buffer.len = m.toNat + n ∧ (i'.buffer.elems.take m.toNat).drop i'.off.toNat = i.contents := by
  have := h.off_nonneg
  have := h.off_le
  unfold IoBuffer.reserve
  by_cases hfit : (i.buffer.len : Int) + n ≤ i.buffer.cap
  · obtain ⟨b,hb,harr,hlen⟩ := h.tryGrow_fit (n := n) (by omega) (by omega) hfit
    rw [hb,ok_bind]
    dsimp only
    rw [if_pos rfl]
    refine ⟨_,_,rfl,⟨h.off_nonneg,by dsimp only; omega,?_⟩,by omega,by dsimp only; omega,
      by dsimp only; rw [hlen]; omega,?_⟩
    · show b.arr.length ≤ maxAlloc
      rw [harr]
      exact h.cap_le
    · dsimp only
      unfold contents Slice.elems
      rw [harr,hlen,List.take_take,Nat.min_eq_left (by omega)]
      rfl
  · rw [h.tryGrow_fail (n := n) (by omega) (by omega) (by omega),ok_bind]
    dsimp only
    rw [if_neg (by simp)]
    obtain ⟨i',hg,hw,hoff,hlen,htake⟩ := h.grow hn hcap (by omega)
    rw [hg]
    refine ⟨i',_,rfl,hw,by omega,by omega,by rw [hlen]; omega,?_⟩
    rw [hoff,Int.toNat_zero,List.drop_zero,Int.toNat_natCast]
    exact htake

/-! ### Adding at the back -/

theorem Wf.with_buffer {i : IoBuffer} (h : i.Wf) {b : Slice UInt8} (hlen : b.len = i.buffer.len)
    (hcap : b.cap = i.buffer.cap) : ({ i with buffer := b } : IoBuffer).Wf :=
  ⟨h.off_nonneg,by dsimp only; rw [hlen]; exact h.off_le,by dsimp only; rw [hcap]; exact h.cap_le⟩

/-- `xs` written into the room at `m` that ends the slice: the unread bytes before the room,
then `xs`. -/
theorem Wf.written {i : IoBuffer} (h : i.Wf) {m : Nat} (xs : List (Option UInt8))
    (hoff : i.off ≤ m) (hlen : i.buffer.len = m + xs.length) {b : Slice UInt8}
    (harr : b.arr = Slice.overwrite i.buffer.arr m xs) (hblen : b.len = i.buffer.len) :
    ({ i with buffer := b } : IoBuffer).Wf ∧
      ({ i with buffer := b } : IoBuffer).contents = (i.buffer.elems.take m).drop i.off.toNat ++ xs := by
  have hle := i.buffer.len_le
  have hcap : b.cap = i.buffer.cap := by
    unfold Slice.cap
    rw [harr,Slice.length_overwrite (by omega)]
  refine ⟨h.with_buffer hblen hcap,?_⟩
  unfold contents Slice.elems
  dsimp only
  rw [harr,hblen,overwrite_reserved (by omega) hlen (by have := h.off_nonneg; omega),List.take_take,
    Nat.min_eq_left (by omega)]

theorem Wf.copy_reserved {i : IoBuffer} (h : i.Wf) {m : Int} (xs : List (Option UInt8))
    (hm0 : 0 ≤ m) (hoff : i.off ≤ m) (hlen : i.buffer.len = m.toNat + xs.length) :
    ∃ b, i.buffer.copyAt m xs = .ok (b,xs.length) ∧ ({ i with buffer := b } : IoBuffer).Wf ∧
      ({ i with buffer := b } : IoBuffer).contents =
        (i.buffer.elems.take m.toNat).drop i.off.toNat ++ xs := by
  obtain ⟨b,hb,harr,hblen⟩ := Slice.copyAt_ok (s := i.buffer) xs hm0 (by omega)
  have hxs : xs.take (i.buffer.len - m.toNat) = xs := List.take_of_length_le (by omega)
  rw [hxs] at harr
  rw [show min (i.buffer.len - m.toNat) xs.length = xs.length by omega] at hb
  exact ⟨b,hb,h.written xs (by omega) hlen harr hblen⟩

theorem Wf.write {i : IoBuffer} (h : i.Wf) (p : List UInt8) (hp : p.length ≤ 2 ^ 45)
    (hcap : i.buffer.cap ≤ 2 ^ 45) :
    ∃ i', i.Write p = .ok (i',p.length) ∧ i'.Wf ∧ i'.contents = i.contents ++ p.map some := by
  obtain ⟨i₁,m,hr,hw,hm0,hoff,hlen,hold⟩ := h.reserve hp hcap
  obtain ⟨b,hb,hbw,hbc⟩ := hw.copy_reserved (p.map some) hm0 hoff
    (by rw [hlen,List.length_map])
  unfold Write
  rw [hr,ok_bind]
  dsimp only
  rw [hb,ok_bind,List.length_map]
  exact ⟨_,rfl,hbw,by rw [hbc,hold]⟩

theorem Wf.writeByte {i : IoBuffer} (h : i.Wf) (x : UInt8) (hcap : i.buffer.cap ≤ 2 ^ 45) :
    ∃ i', i.WriteByte x = .ok i' ∧ i'.Wf ∧ i'.contents = i.contents ++ [some x] := by
  obtain ⟨i₁,m,hr,hw,hm0,hoff,hlen,hold⟩ := h.reserve (n := 1) (by decide) hcap
  change i.reserve 1 = _ at hr
  have hle := i₁.buffer.len_le
  unfold WriteByte
  rw [hr,ok_bind]
  dsimp only
  rw [dif_pos ⟨hm0,by omega⟩]
  obtain ⟨hbw,hbc⟩ := hw.written (m := m.toNat) [some x]
    (b := ⟨i₁.buffer.arr.set m.toNat (some x),i₁.buffer.len,by
      rw [List.length_set]; exact i₁.buffer.len_le⟩) (by omega) hlen
    (Slice.set_eq_overwrite _ (by omega)) rfl
  exact ⟨_,rfl,hbw,by rw [hbc,hold]⟩

@[simp] theorem length_bigEndian (w v : Nat) : (bigEndian w v).length = w := by
  simp [bigEndian]

/-- `WriteUint16`, `WriteUint32` and `WriteUint64` add the value's big-endian bytes after the
unread ones. -/
theorem Wf.writeBigEndian {i : IoBuffer} (h : i.Wf) {w : Nat} (v : Nat) (hw : w ≤ 2 ^ 45)
    (hcap : i.buffer.cap ≤ 2 ^ 45) :
    ∃ i', i.writeBigEndian w v = .ok i' ∧ i'.Wf ∧
      i'.contents = i.contents ++ (bigEndian w v).map some := by
  obtain ⟨i₁,m,hr,hw₁,hm0,hoff,hlen,hold⟩ := h.reserve hw hcap
  obtain ⟨b,hb,hbw,hbc⟩ := hw₁.copy_reserved ((bigEndian w v).map some) hm0 hoff
    (by rw [hlen,List.length_map,length_bigEndian])
  unfold IoBuffer.writeBigEndian
  rw [hr,ok_bind]
  dsimp only
  rw [if_pos (by omega),hb,ok_bind]
  exact ⟨_,rfl,hbw,by rw [hbc,hold]⟩

/-- `Grow(n)` adds `n` zero bytes after the unread ones, and refuses a negative `n` with
`ErrNegativeCount`, changing nothing. -/
theorem Wf.Grow {i : IoBuffer} (h : i.Wf) {n : Int} (hn : n ≤ 2 ^ 45)
    (hcap : i.buffer.cap ≤ 2 ^ 45) :
    ∃ i' e, i.Grow n = .ok (i',e) ∧ i'.Wf ∧ (e = true ↔ n < 0) ∧
      i'.contents = i.contents ++ List.replicate n.toNat (some 0) := by
  unfold IoBuffer.Grow
  by_cases hneg : n < 0
  · rw [if_pos hneg,show n.toNat = 0 by omega,List.replicate_zero,List.append_nil]
    exact ⟨_,_,rfl,h,by simp [hneg],rfl⟩
  obtain ⟨k,rfl⟩ : ∃ k : Nat, n = k := ⟨n.toNat,by omega⟩
  obtain ⟨i₁,m,hr,hw,hm0,hoff,hlen,hold⟩ := h.reserve (n := k) (by omega) hcap
  rw [if_neg hneg,hr,ok_bind,Int.toNat_natCast]
  dsimp only
  by_cases hpos : (k : Int) > 0
  · -- the loop that zeroes `buffer[start:]`
    obtain ⟨b,hb,hbw,hbc⟩ := hw.copy_reserved (List.replicate k (some 0)) hm0 hoff
      (by rw [hlen,List.length_replicate])
    rw [if_pos hpos,if_neg (by omega),show i₁.buffer.len - m.toNat = k by omega,hb,ok_bind]
    exact ⟨_,_,rfl,hbw,by simp,by rw [hbc,hold]⟩
  · rw [if_neg hpos]
    refine ⟨_,_,rfl,hw,by simp,?_⟩
    have hm : i₁.buffer.elems.take m.toNat = i₁.buffer.elems :=
      List.take_of_length_le (by rw [Slice.length_elems]; omega)
    rw [show k = 0 by omega,List.replicate_zero,List.append_nil,← hold,hm]
    rfl

/-- A buffer on a slice it reads from the front. -/
@[simp] theorem contents_front (i : IoBuffer) (b : Slice UInt8) :
    ({ i with buffer := b, off := 0 } : IoBuffer).contents = b.elems := by
  simp [contents]

theorem wf_front (i : IoBuffer) {b : Slice UInt8} (hcap : b.cap ≤ maxAlloc) :
    ({ i with buffer := b, off := 0 } : IoBuffer).Wf :=
  ⟨Int.le_refl 0,by dsimp only; omega,hcap⟩

/-- What a call starts from when everything has been read: `Reset` when the offset moved. -/
theorem Wf.resetIfDrained {i : IoBuffer} (h : i.Wf) :
    (if i.off > 0 ∧ i.off ≥ i.buffer.len then i.Reset else i).Wf ∧
      (if i.off > 0 ∧ i.off ≥ i.buffer.len then i.Reset else i).contents = i.contents ∧
      (if i.off > 0 ∧ i.off ≥ i.buffer.len then i.Reset else i).buffer.cap = i.buffer.cap := by
  split_ifs with hr
  · have hlen := h.length_contents
    unfold Len at hlen
    refine ⟨h.reset,?_,rfl⟩
    rw [contents_reset]
    exact (List.eq_nil_of_length_eq_zero (by omega)).symm
  · exact ⟨h,rfl,rfl⟩

/-- `xs` copied after the slice's elements, with the slice extended over them. -/
theorem Wf.appended {i : IoBuffer} (h : i.Wf) {xs : List (Option UInt8)}
    (hfit : i.buffer.len + xs.length ≤ i.buffer.cap) {b : Slice UInt8}
    (harr : b.arr = Slice.overwrite i.buffer.arr i.buffer.len xs)
    (hblen : b.len = i.buffer.len + xs.length) :
    ({ i with buffer := b } : IoBuffer).Wf ∧
      ({ i with buffer := b } : IoBuffer).contents = i.contents ++ xs := by
  have := h.off_nonneg
  have := h.off_le
  refine ⟨⟨h.off_nonneg,by dsimp only; omega,?_⟩,?_⟩
  · show b.arr.length ≤ maxAlloc
    rw [harr,Slice.length_overwrite hfit]
    exact h.cap_le
  · unfold contents Slice.elems
    dsimp only
    rw [harr,hblen,overwrite_reserved (Nat.le_trans (Nat.le_add_right _ _) hfit) rfl (by omega)]

/-- The room `Append` makes for `d` bytes: the same slice when it has it, else the unread
bytes compacted when that frees enough, or moved to a larger slice. -/
theorem Wf.appendRoom {i : IoBuffer} (h : i.Wf) {d : Nat} (hd : d ≤ 2 ^ 45)
    (hcap : i.buffer.cap ≤ 2 ^ 45) :
    ∃ i', (if (i.buffer.cap - i.buffer.len : Int) < d then
        (if i.off + (i.buffer.cap - i.buffer.len : Int) > d then i.copy 0 else i.copy d)
        else pure i) = .ok i' ∧
      i'.Wf ∧ i'.contents = i.contents ∧ i'.buffer.len + d ≤ i'.buffer.cap := by
  have := h.off_nonneg
  have := h.off_le
  have := h.len_le_cap
  have hlc := h.length_contents
  unfold Len at hlc
  by_cases hfree : (i.buffer.cap - i.buffer.len : Int) < d
  · rw [if_pos hfree]
    by_cases hcompact : i.off + (i.buffer.cap - i.buffer.len : Int) > d
    · -- moving the unread bytes to the front frees enough
      obtain ⟨b,hb,hxs,hblen,hbcap⟩ := h.copy_zero
      rw [if_pos hcompact,hb]
      refine ⟨_,rfl,wf_front i (by rw [hbcap]; exact h.cap_le),by rw [contents_front,hxs],?_⟩
      dsimp only
      omega
    · have hg := growCap_le i.buffer.cap
      have hge := le_growCap i.buffer.cap
      unfold MinRead at hg
      obtain ⟨b,hb,hxs,hblen,hbcap,hbmax⟩ := h.copy_grow (e := d) (by unfold maxAlloc; omega)
      rw [if_neg (by omega)] at hb
      rw [if_neg hcompact,hb]
      refine ⟨_,rfl,wf_front i hbmax,by rw [contents_front,hxs],?_⟩
      dsimp only
      omega
  · rw [if_neg hfree]
    exact ⟨i,rfl,h,rfl,by omega⟩

/-- The end of `Append`: the bytes copied after the slice's elements, when they fit. -/
theorem Wf.appendTail {i : IoBuffer} (h : i.Wf) (data : List UInt8)
    (hfit : i.buffer.len + data.length ≤ i.buffer.cap) :
    ∃ i', (do
        let dst ← i.buffer.reslice (i.buffer.len + data.length)
        let (b,m) ← dst.copyAt i.buffer.len (data.map some)
        let b ← b.reslice (i.buffer.len + m)
        pure ({ i with buffer := b } : IoBuffer) : Except Panic IoBuffer) = .ok i' ∧
      i'.Wf ∧ i'.contents = i.contents ++ data.map some := by
  have hlen : (data.map some).length = data.length := List.length_map ..
  obtain ⟨d,t,u,hdst,ht,hu,harr,hulen⟩ := Slice.copy_extend (s := i.buffer)
    (k := i.buffer.len + data.length) (data.map some) (by omega) (by unfold Slice.cap at *; omega)
  rw [hlen] at ht hu hulen
  rw [hdst,ok_bind,ht,ok_bind]
  dsimp only
  rw [hu,ok_bind]
  obtain ⟨hw,hc⟩ := h.appended (by rw [hlen]; exact hfit) harr (by rw [hulen,hlen])
  exact ⟨_,rfl,hw,hc⟩

theorem Wf.append {i : IoBuffer} (h : i.Wf) (data : List UInt8) (hd : data.length ≤ 2 ^ 45)
    (hcap : i.buffer.cap ≤ 2 ^ 45) :
    ∃ i', i.Append data = .ok i' ∧ i'.Wf ∧ i'.contents = i.contents ++ data.map some := by
  obtain ⟨hw₀,hc₀,hcap₀⟩ := h.resetIfDrained
  unfold Append
  dsimp only
  generalize (if i.off > 0 ∧ i.off ≥ i.buffer.len then i.Reset else i) = i₀ at hw₀ hc₀ hcap₀ ⊢
  rw [← hc₀]
  obtain ⟨i₁,hi₁,hw₁,hc₁,hfit⟩ := hw₀.appendRoom hd (by rw [hcap₀]; exact hcap)
  by_cases hfree : (i₀.buffer.cap - i₀.buffer.len : Int) < data.length
  · rw [if_pos hfree] at hi₁
    rw [if_pos hfree,hi₁,ok_bind]
    obtain ⟨i',he,hw,hc⟩ := hw₁.appendTail data hfit
    exact ⟨i',he,hw,by rw [hc,hc₁]⟩
  · rw [if_neg hfree,pure_bind]
    exact hw₀.appendTail data (by have := hw₀.len_le_cap; omega)

/-! ### The constructors -/

theorem newIoBuffer_wf {cap : Int} (hcap : cap ≤ maxAlloc) :
    ∃ i, newIoBuffer cap = .ok i ∧ i.Wf ∧ i.contents = [] := by
  unfold newIoBuffer
  dsimp only
  obtain ⟨s,hs,hslen,hscap,hsmax⟩ := GetBytes_ok (if cap ≤ 0 then (DefaultSize : Int) else cap)
    (by split_ifs <;> omega) (by split_ifs <;> unfold DefaultSize maxAlloc at * <;> omega)
  obtain ⟨b,hb,hbarr,hblen⟩ := Slice.reslice_ok (s := s) (Int.le_refl 0) (by omega)
  rw [hs,ok_bind,hb,ok_bind]
  refine ⟨_,rfl,⟨Int.le_refl 0,by dsimp only; omega,?_⟩,?_⟩
  · show b.arr.length ≤ maxAlloc
    rw [hbarr]
    exact hsmax
  · simp [contents,Slice.elems,hblen]

theorem newIoBufferBytes_wf (bs : List UInt8) (hbs : bs.length ≤ maxAlloc) :
    ∃ i, NewIoBufferBytes (some bs) = .ok i ∧ i.Wf ∧ i.contents = bs.map some :=
  ⟨_,rfl,⟨Int.le_refl 0,by simp,by simpa [Slice.cap] using hbs⟩,by
    simp [contents,Slice.elems,List.take_of_length_le]⟩

end IoBuffer

end Gkit.Buffer
