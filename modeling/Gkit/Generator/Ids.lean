import Gkit.Generator.Snowflake

/-!
The IDs `NextID` hands out. A generator's time and sequence, read as one number, rise at
every call (`Snowflake.stamp`), and an ID is that number above the node's bits, so the IDs
of the calls that do not fail rise too, and `Decompose` reads each one back. This rests on
the `int64` time not wrapping: a generator's time stays within `2^41` ticks of a reading,
plus one per call, so every run of at most `2^62` calls is safe. With the clock held still,
the sequence wraps every 256 calls, and after `1 + 256 · (2^63 - 1)` calls `elapsedTime++`
wraps to `-2^63`, which `toID` accepts and packs into the ID `0`.
-/

namespace Gkit.Generator

/-! ### Arithmetic -/

theorem int64_of_lt {x : Int} (hlo : -2 ^ 63 ≤ x) (hhi : x < 2 ^ 63) : int64 x = x :=
  Int.bmod_eq_of_le (by omega) (by omega)

theorem toSnowflakeTime_bounds (t : Reading) :
    -2 ^ 40 < toSnowflakeTime t ∧ toSnowflakeTime t < 2 ^ 40 := by
  have hlo := t.lo
  have hhi := t.hi
  unfold toSnowflakeTime timeUnit
  rcases Int.le_total 0 t.unixNano with hx | hx
  · rw [Int.tdiv_eq_ediv_of_nonneg hx]
    omega
  · rw [← Int.neg_neg t.unixNano,Int.neg_tdiv,Int.tdiv_eq_ediv_of_nonneg (by omega)]
    omega

/-- From a start of 40 bits the subtraction of `currentElapsedTime` does not wrap. -/
theorem currentElapsedTime_eq {startTime : Int} (hlo : -2 ^ 40 < startTime)
    (hhi : startTime < 2 ^ 40) (now : Reading) :
    currentElapsedTime startTime now = toSnowflakeTime now - startTime := by
  have := toSnowflakeTime_bounds now
  exact int64_of_lt (by omega) (by omega)

theorem pack_eq {t q n : Nat} (hq : q < 2 ^ 8) (hn : n < 2 ^ 16) :
    t <<< 24 ||| q <<< 16 ||| n = t * 2 ^ 24 + q * 2 ^ 16 + n := by
  have h24 : t <<< 24 = (t <<< 8) <<< 16 := Nat.shiftLeft_add t 8 16
  rw [h24,← Nat.shiftLeft_or_distrib,← Nat.shiftLeft_add_eq_or_of_lt hq,
    ← Nat.shiftLeft_add_eq_or_of_lt hn,Nat.shiftLeft_eq,Nat.shiftLeft_eq]
  omega

/-- `(sequence + 1) & maskSequence` counts modulo `2^8`. -/
theorem nextSequence_toNat (q : UInt16) :
    ((q + 1) &&& maskSequence).toNat = (q.toNat + 1) % 2 ^ SequenceBit := by
  have hm : maskSequence.toNat = 2 ^ 8 - 1 := rfl
  rw [UInt16.toNat_and,UInt16.toNat_add,hm,Nat.and_two_pow_sub_one_eq_mod,UInt16.toNat_one]
  unfold SequenceBit
  omega

/-! ### `toID` and `Decompose` -/

theorem toID_of_ge {s : Snowflake} (h : 2 ^ TimeBit ≤ s.elapsedTime) :
    s.toID = .error "over the time limit" := by
  unfold Snowflake.toID
  rw [if_pos h]

/-- Below the limit `toID` packs the time above the sequence above the node. -/
theorem toID_of_lt {s : Snowflake} (h0 : 0 ≤ s.elapsedTime) (ht : s.elapsedTime < 2 ^ TimeBit)
    (hq : s.sequence.toNat < 2 ^ SequenceBit) :
    ∃ id, s.toID = .ok id ∧
      id.toNat = s.elapsedTime.toNat * 2 ^ 24 + s.sequence.toNat * 2 ^ 16 + s.node.toNat := by
  refine ⟨_,if_neg (Int.not_le.mpr ht),?_⟩
  unfold TimeBit at ht
  unfold SequenceBit at hq
  have hti : (UInt64.ofInt s.elapsedTime).toNat = s.elapsedTime.toNat := by
    simp only [UInt64.ofInt,UInt64.toNat_ofNat']
    omega
  have h24 : (SequenceBit + NodeBit).toUInt64.toNat % 64 = 24 := rfl
  have h16 : NodeBit.toUInt64.toNat % 64 = 16 := rfl
  simp only [UInt64.toNat_or,UInt64.toNat_shiftLeft,hti,UInt16.toNat_toUInt64,h24,h16]
  rw [Nat.mod_eq_of_lt (a := s.elapsedTime.toNat <<< 24) (by rw [Nat.shiftLeft_eq]; omega),
    Nat.mod_eq_of_lt (a := s.sequence.toNat <<< 16) (by rw [Nat.shiftLeft_eq]; omega)]
  exact pack_eq hq s.node.toNat_lt

/-- `Decompose` of a packed ID gives back its fields. -/
theorem decompose_toNat {id : UInt64} {t q n : Nat} (ht : t < 2 ^ 39) (hq : q < 2 ^ 8)
    (hn : n < 2 ^ 16) (h : id.toNat = t * 2 ^ 24 + q * 2 ^ 16 + n) :
    (Decompose id).msb.toNat = 0 ∧ (Decompose id).time.toNat = t ∧
      (Decompose id).sequence.toNat = q ∧ (Decompose id).node.toNat = n := by
  have hmask : ((2 ^ SequenceBit - 1) * 2 ^ NodeBit : Nat).toUInt64.toNat >>> 16 = 2 ^ 8 - 1 := rfl
  have hnode : (2 ^ NodeBit - 1 : Nat).toUInt64.toNat = 2 ^ 16 - 1 := rfl
  have h24 : (SequenceBit + NodeBit).toUInt64.toNat % 64 = 24 := rfl
  have h16 : NodeBit.toUInt64.toNat % 64 = 16 := rfl
  refine ⟨?_,?_,?_,?_⟩
  · have h63 : (63 : UInt64).toNat % 64 = 63 := rfl
    rw [Decompose,UInt64.toNat_shiftRight,h63,Nat.shiftRight_eq_div_pow]
    exact Nat.div_eq_of_lt (by omega)
  · rw [Decompose,UInt64.toNat_shiftRight,h24,Nat.shiftRight_eq_div_pow]
    omega
  · -- `(id & mask) >> 16` is the byte above the node's bits
    rw [Decompose,UInt64.toNat_shiftRight,h16,UInt64.toNat_and,Nat.shiftRight_and_distrib,hmask,
      Nat.and_two_pow_sub_one_eq_mod,Nat.shiftRight_eq_div_pow]
    omega
  · rw [Decompose,UInt64.toNat_and,hnode,Nat.and_two_pow_sub_one_eq_mod]
    omega

/-! ### The generator along a run -/

/-- A generator's time and sequence as one number: what every call raises. -/
def Snowflake.stamp (s : Snowflake) : Int := s.elapsedTime * 2 ^ SequenceBit + s.sequence.toNat

/-- What a generator from `NewSnowflakeE` keeps after `k` calls: a start of 40 bits, a time
that is not negative and at most `k` ticks past `2^41`, a sequence within its bits. -/
structure Snowflake.Sound (s : Snowflake) (k : Nat) : Prop where
  start_lo : -2 ^ 40 < s.startTime
  start_hi : s.startTime < 2 ^ 40
  time_nonneg : 0 ≤ s.elapsedTime
  time_le : s.elapsedTime ≤ 2 ^ 41 + k
  sequence_lt : s.sequence.toNat < 2 ^ SequenceBit

theorem NewSnowflakeE_sound {startTime : Option Reading} {nodeID : UInt16} {now : Reading}
    {s : Snowflake} (hs : NewSnowflakeE startTime nodeID now = .ok s) :
    s.Sound 0 ∧ s.node = nodeID := by
  have key : ∀ t : Reading, (⟨toSnowflakeTime t,0,(2 ^ SequenceBit - 1 : Nat).toUInt16,nodeID⟩ :
      Snowflake).Sound 0 := fun t =>
    have hb := toSnowflakeTime_bounds t
    ⟨hb.1,hb.2,Int.le_refl 0,by dsimp only; omega,by dsimp only; decide⟩
  unfold NewSnowflakeE at hs
  split at hs
  · split_ifs at hs
    cases hs
    exact ⟨key _,rfl⟩
  · cases hs
    exact ⟨key _,rfl⟩

/-- One call raises the stamp and keeps what the generator keeps, while `k` calls leave its
time far from the `int64` limit. -/
theorem Snowflake.Sound.advance {s : Snowflake} {k : Nat} (h : s.Sound k) (hk : k < 2 ^ 62)
    (now : Reading) :
    (s.advance now).Sound (k + 1) ∧ s.stamp < (s.advance now).stamp ∧
      (s.advance now).startTime = s.startTime ∧ (s.advance now).node = s.node := by
  have hcur := currentElapsedTime_eq h.start_lo h.start_hi now
  have hb := toSnowflakeTime_bounds now
  have hlo := h.start_lo
  have hhi := h.start_hi
  have hq : s.sequence.toNat < 2 ^ 8 := h.sequence_lt
  have ht0 := h.time_nonneg
  have htk := h.time_le
  have hseq := nextSequence_toNat s.sequence
  unfold SequenceBit at hseq
  unfold Snowflake.advance Snowflake.stamp SequenceBit
  dsimp only
  split_ifs with hlt hz
  · -- a later clock: its time and a new sequence
    refine ⟨⟨h.start_lo,h.start_hi,by dsimp only; omega,by dsimp only; omega,by dsimp only; decide⟩,?_,rfl,rfl⟩
    dsimp only
    rw [UInt16.toNat_zero]
    omega
  · -- the sequence wraps, and the time moves one tick on
    rw [hz,UInt16.toNat_zero] at hseq
    rw [int64_of_lt (by omega) (by omega),hz]
    refine ⟨⟨h.start_lo,h.start_hi,by dsimp only; omega,by dsimp only; omega,by dsimp only; decide⟩,?_,rfl,rfl⟩
    dsimp only
    rw [UInt16.toNat_zero]
    omega
  · -- the sequence goes one on
    have hnz : ((s.sequence + 1) &&& maskSequence).toNat ≠ 0 := fun h0 =>
      hz (UInt16.toNat_inj.mp (h0.trans UInt16.toNat_zero.symm))
    refine ⟨⟨h.start_lo,h.start_hi,ht0,by dsimp only; omega,?_⟩,?_,rfl,rfl⟩
    · dsimp only
      unfold SequenceBit
      omega
    · dsimp only
      omega

/-- An ID with the generator that made it: `toID` gave it, from a time below the limit and
a sequence within its bits. -/
structure IssuedBy (id : UInt64) (s : Snowflake) : Prop where
  toID : s.toID = .ok id
  time_nonneg : 0 ≤ s.elapsedTime
  time_lt : s.elapsedTime < 2 ^ TimeBit
  sequence_lt : s.sequence.toNat < 2 ^ SequenceBit

theorem IssuedBy.toNat_eq {id : UInt64} {s : Snowflake} (h : IssuedBy id s) :
    id.toNat = s.elapsedTime.toNat * 2 ^ 24 + s.sequence.toNat * 2 ^ 16 + s.node.toNat := by
  obtain ⟨id',hid',hnat⟩ := toID_of_lt h.time_nonneg h.time_lt h.sequence_lt
  have : id' = id := Except.ok.inj (hid'.symm.trans h.toID)
  rwa [← this]

theorem IssuedBy.lt {a b : UInt64} {s t : Snowflake} (ha : IssuedBy a s) (hb : IssuedBy b t)
    (hnode : s.node = t.node) (hst : s.stamp < t.stamp) : a < b := by
  have hsa := ha.toNat_eq
  have htb := hb.toNat_eq
  have hs0 := ha.time_nonneg
  have hsq : s.sequence.toNat < 2 ^ 8 := ha.sequence_lt
  have htq : t.sequence.toNat < 2 ^ 8 := hb.sequence_lt
  unfold Snowflake.stamp SequenceBit at hst
  rw [hnode] at hsa
  rw [UInt64.lt_iff_toNat_lt,hsa,htb]
  omega

theorem IssuedBy.decompose {id : UInt64} {s : Snowflake} (h : IssuedBy id s) :
    Decompose id = ⟨id,0,UInt64.ofInt s.elapsedTime,s.sequence.toUInt64,s.node.toUInt64⟩ := by
  have ht := h.time_lt
  have h0 := h.time_nonneg
  unfold TimeBit at ht
  obtain ⟨hmsb,htime,hseq,hnode⟩ :=
    decompose_toNat (by omega) h.sequence_lt s.node.toNat_lt h.toNat_eq
  have hti : (UInt64.ofInt s.elapsedTime).toNat = s.elapsedTime.toNat := by
    simp only [UInt64.ofInt,UInt64.toNat_ofNat']
    omega
  have e1 : (Decompose id).msb = 0 := UInt64.toNat_inj.mp hmsb
  have e2 : (Decompose id).time = UInt64.ofInt s.elapsedTime := UInt64.toNat_inj.mp (htime.trans hti.symm)
  have e3 : (Decompose id).sequence = s.sequence.toUInt64 :=
    UInt64.toNat_inj.mp (hseq.trans (UInt16.toNat_toUInt64 _).symm)
  have e4 : (Decompose id).node = s.node.toUInt64 :=
    UInt64.toNat_inj.mp (hnode.trans (UInt16.toNat_toUInt64 _).symm)
  rw [← e1,← e2,← e3,← e4]
  rfl

theorem mem_issued {s : Snowflake} {k : Nat} (h : (s.advance now).Sound k) {p : UInt64 × Snowflake}
    (hp : p ∈ issued s now) : p.2 = s.advance now ∧ IssuedBy p.1 p.2 := by
  unfold issued Snowflake.NextID at hp
  split at hp
  · next id hid =>
    rw [List.mem_singleton] at hp
    subst hp
    refine ⟨rfl,hid,h.time_nonneg,Int.not_le.mp fun hge => ?_,h.sequence_lt⟩
    rw [toID_of_ge hge] at hid
    cases hid
  · cases hp

theorem issued_pairwise (s : Snowflake) (now : Reading) :
    ((issued s now).map Prod.fst).Pairwise (· < ·) := by
  unfold issued
  split <;> simp

/-- Along a run of at most `2^62 - k` calls, the IDs handed out rise, each from a generator
of a higher stamp and the same node. -/
theorem Snowflake.Sound.trace {s : Snowflake} {k : Nat} (h : s.Sound k) (rs : List Reading)
    (hk : k + rs.length ≤ 2 ^ 62) :
    ((Runs.trace snowflakeStep issued s rs).map Prod.fst).Pairwise (· < ·) ∧
      ∀ p ∈ Runs.trace snowflakeStep issued s rs,
        s.stamp < p.2.stamp ∧ p.2.node = s.node ∧ IssuedBy p.1 p.2 := by
  induction rs generalizing s k with
  | nil => simp
  | cons r rs ih =>
    obtain ⟨hs',hlt,-,hnode⟩ := h.advance (by simp at hk; omega) r
    obtain ⟨ihp,ihm⟩ := ih hs' (by simp at hk; omega)
    have hstep : snowflakeStep s r = s.advance r := rfl
    rw [Runs.trace_cons,hstep]
    refine ⟨?_,fun p hp => ?_⟩
    · rw [List.map_append,List.pairwise_append]
      refine ⟨issued_pairwise s r,ihp,fun a ha b hb => ?_⟩
      obtain ⟨p,hp,rfl⟩ := List.mem_map.mp ha
      obtain ⟨q,hq,rfl⟩ := List.mem_map.mp hb
      obtain ⟨hp2,hpi⟩ := mem_issued hs' hp
      obtain ⟨hqs,hqn,hqi⟩ := ihm q hq
      rw [← hp2] at hqs hqn
      exact hpi.lt hqi hqn.symm hqs
    · rcases List.mem_append.mp hp with hp | hp
      · obtain ⟨hp2,hpi⟩ := mem_issued hs' hp
        rw [hp2]
        exact ⟨hlt,hnode,hp2 ▸ hpi⟩
      · obtain ⟨hqs,hqn,hqi⟩ := ihm p hp
        exact ⟨Int.lt_trans hlt hqs,hqn.trans hnode,hqi⟩

theorem nextID_increasing {startTime : Option Reading} {nodeID : UInt16} {now : Reading}
    {s : Snowflake} (hs : NewSnowflakeE startTime nodeID now = .ok s) (rs : List Reading)
    (hlen : rs.length ≤ 2 ^ 62) :
    let ids : List (UInt64 × Snowflake) := Runs.trace snowflakeStep issued s rs
    (ids.map Prod.fst).Pairwise (· < ·) ∧
      ∀ p ∈ ids, Decompose p.1 =
        ⟨p.1,0,UInt64.ofInt p.2.elapsedTime,p.2.sequence.toUInt64,nodeID.toUInt64⟩ := by
  obtain ⟨hsound,hnode⟩ := NewSnowflakeE_sound hs
  obtain ⟨hpair,hmem⟩ := hsound.trace rs (by omega)
  refine ⟨hpair,fun p hp => ?_⟩
  obtain ⟨-,hpn,hpi⟩ := hmem p hp
  rw [hpi.decompose,hpn,hnode]

/-- Four readings a second after `defaultStart`: two within one millisecond, one 25 ms on,
and one that goes back 5 ms. -/
def fourReadings : List Reading :=
  [⟨1409529601000000000,by decide,by decide⟩,⟨1409529601000400000,by decide,by decide⟩,
    ⟨1409529601025000000,by decide,by decide⟩,⟨1409529601020000000,by decide,by decide⟩]

theorem nextID_increasing_fourReadings :
    NewSnowflakeE none 7 defaultStart = .ok ⟨toSnowflakeTime defaultStart,0,255,7⟩ ∧
      fourReadings.length ≤ 2 ^ 62 ∧
      ((Runs.trace snowflakeStep issued ⟨toSnowflakeTime defaultStart,0,255,7⟩
        fourReadings).map Prod.fst).Pairwise (· < ·) ∧
      ∀ p ∈ Runs.trace snowflakeStep issued ⟨toSnowflakeTime defaultStart,0,255,7⟩ fourReadings,
        Decompose p.1 = ⟨p.1,0,UInt64.ofInt p.2.elapsedTime,p.2.sequence.toUInt64,(7 : UInt16).toUInt64⟩ :=
  ⟨rfl,by decide,nextID_increasing (show NewSnowflakeE none 7 defaultStart =
    .ok ⟨toSnowflakeTime defaultStart,0,255,7⟩ from rfl) fourReadings (by decide)⟩

example : (Runs.trace snowflakeStep issued ⟨toSnowflakeTime defaultStart,0,255,7⟩
    fourReadings).map (fun p => (p.2.elapsedTime,p.2.sequence)) = [(100,0),(100,1),(102,0),(102,1)] := by
  decide +kernel

/-! ### The clock held back -/

section Behind

variable {st et : Int} {n : UInt16} {now : Reading}

theorem advance_of_behind {s : Snowflake} (hc : currentElapsedTime s.startTime now ≤ s.elapsedTime) :
    s.advance now = if (s.sequence + 1) &&& maskSequence = 0
      then { s with elapsedTime := int64 (s.elapsedTime + 1), sequence := 0 }
      else { s with sequence := (s.sequence + 1) &&& maskSequence } := by
  unfold Snowflake.advance
  rw [if_neg (Int.not_lt.mpr hc)]
  dsimp only
  split_ifs with hz
  · rw [hz]
  · rfl

theorem sequence_succ_toNat {q : UInt16} (hq : q.toNat + 1 < 2 ^ SequenceBit) :
    (q + 1).toNat = q.toNat + 1 := by
  rw [UInt16.toNat_add,UInt16.toNat_one]
  unfold SequenceBit at hq
  omega

/-- With the clock behind, `j` calls count the sequence `j` on, while it does not wrap. -/
theorem run_behind (hc : currentElapsedTime st now ≤ et) (j : Nat) :
    ∀ q : UInt16, q.toNat + j < 2 ^ SequenceBit → ∃ r : UInt16, r.toNat = q.toNat + j ∧
      Runs.run snowflakeStep ⟨st,et,q,n⟩ (List.replicate j now) = ⟨st,et,r,n⟩ := by
  induction j with
  | zero => exact fun q _ => ⟨q,rfl,rfl⟩
  | succ j ih =>
    intro q hq
    have hq1 := sequence_succ_toNat (q := q) (by omega)
    have hmask : (q + 1) &&& maskSequence = q + 1 :=
      UInt16.toNat_inj.mp (by rw [nextSequence_toNat,hq1]; unfold SequenceBit at hq ⊢; omega)
    have hne : (q + 1) &&& maskSequence ≠ 0 := fun h0 => by
      have := congrArg UInt16.toNat h0
      rw [hmask,hq1,UInt16.toNat_zero] at this
      omega
    have hstep : snowflakeStep ⟨st,et,q,n⟩ now = ⟨st,et,q + 1,n⟩ := by
      show Snowflake.advance _ now = _
      rw [advance_of_behind (s := ⟨st,et,q,n⟩) hc,if_neg hne,hmask]
    obtain ⟨r,hr,hrun⟩ := ih (q + 1) (by omega)
    exact ⟨r,by omega,by rw [List.replicate_succ,Runs.run_cons,hstep,hrun]⟩

/-- With the clock behind, `2^8` calls from sequence `0` move the time one tick on. -/
theorem run_cycle (hc : currentElapsedTime st now ≤ et) :
    Runs.run snowflakeStep ⟨st,et,0,n⟩ (List.replicate (2 ^ SequenceBit) now) =
      ⟨st,int64 (et + 1),0,n⟩ := by
  obtain ⟨r,hr,hrun⟩ := run_behind (n := n) hc (2 ^ SequenceBit - 1) 0 (by unfold SequenceBit; simp)
  have h255 : r = 255 := UInt16.toNat_inj.mp (by rw [hr]; unfold SequenceBit; simp)
  have hwrap : ((255 : UInt16) + 1) &&& maskSequence = 0 :=
    UInt16.toNat_inj.mp (by rw [nextSequence_toNat]; unfold SequenceBit; simp)
  have hlast : snowflakeStep ⟨st,et,255,n⟩ now = ⟨st,int64 (et + 1),0,n⟩ := by
    show Snowflake.advance _ now = _
    rw [advance_of_behind (s := ⟨st,et,255,n⟩) hc,if_pos hwrap]
  rw [show 2 ^ SequenceBit = (2 ^ SequenceBit - 1) + 1 from rfl,List.replicate_succ',
    Runs.run_append,hrun,h255,Runs.run_cons,hlast,Runs.run_nil]

/-- With the clock behind, `j` wraps of the sequence move the time `j` ticks on, while the
time does not reach the `int64` limit. -/
theorem run_cycles (hc : currentElapsedTime st now ≤ et) (hlo : -2 ^ 63 ≤ et) (j : Nat)
    (hj : et + j < 2 ^ 63) :
    Runs.run snowflakeStep ⟨st,et,0,n⟩ (List.replicate (2 ^ SequenceBit * j) now) =
      ⟨st,et + j,0,n⟩ := by
  induction j with
  | zero => simp
  | succ j ih =>
    rw [Nat.mul_succ,List.replicate_add,Runs.run_append,ih (by omega),run_cycle (by omega),
      int64_of_lt (by omega) (by omega)]
    congr 1
    omega

end Behind

/-- The clock at the Unix epoch. -/
def epoch : Reading := ⟨0,by decide,by decide⟩

theorem nextID_wraps :
    NewSnowflakeE (some epoch) 0 epoch = .ok ⟨0,0,255,0⟩ ∧
      ¬((Runs.trace snowflakeStep issued ⟨0,0,255,0⟩
        (List.replicate (1 + 2 ^ SequenceBit * (2 ^ 63 - 1)) epoch)).map Prod.fst).Pairwise (· < ·) := by
  refine ⟨by decide,fun hpair => ?_⟩
  have hc : currentElapsedTime 0 epoch = 0 := by decide
  -- the first call, `2^63 - 2` wraps of the sequence, 255 calls, and the call that wraps the time
  have hsplit : List.replicate (1 + 2 ^ SequenceBit * (2 ^ 63 - 1)) epoch =
      [epoch] ++ List.replicate (2 ^ SequenceBit * (2 ^ 63 - 2)) epoch ++
        List.replicate (2 ^ SequenceBit - 1) epoch ++ [epoch] := by
    rw [show 1 + 2 ^ SequenceBit * (2 ^ 63 - 1) =
        1 + 2 ^ SequenceBit * (2 ^ 63 - 2) + (2 ^ SequenceBit - 1) + 1 by unfold SequenceBit; omega,
      List.replicate_add,List.replicate_add,List.replicate_add,List.replicate_one]
  have h1 : Runs.run snowflakeStep ⟨0,0,255,0⟩ [epoch] = ⟨0,1,0,0⟩ := by decide
  have h2 : Runs.run snowflakeStep ⟨0,1,0,0⟩ (List.replicate (2 ^ SequenceBit * (2 ^ 63 - 2)) epoch) =
      ⟨0,2 ^ 63 - 1,0,0⟩ :=
    (run_cycles (by rw [hc]; decide) (by decide) _ (by decide)).trans rfl
  obtain ⟨r,hr,h3⟩ : ∃ r : UInt16, r.toNat = (0 : UInt16).toNat + (2 ^ SequenceBit - 1) ∧
      Runs.run snowflakeStep ⟨0,2 ^ 63 - 1,0,0⟩ (List.replicate (2 ^ SequenceBit - 1) epoch) =
        ⟨0,2 ^ 63 - 1,r,0⟩ :=
    run_behind (by rw [hc]; decide) (2 ^ SequenceBit - 1) 0 (by decide)
  have h255 : r = 255 := UInt16.toNat_inj.mp (by rw [hr]; unfold SequenceBit; simp)
  have hB : Runs.run snowflakeStep ⟨0,0,255,0⟩
      ([epoch] ++ List.replicate (2 ^ SequenceBit * (2 ^ 63 - 2)) epoch) = ⟨0,2 ^ 63 - 1,0,0⟩ := by
    rw [Runs.run_append,h1,h2]
  have hC : Runs.run snowflakeStep ⟨0,0,255,0⟩
      ([epoch] ++ List.replicate (2 ^ SequenceBit * (2 ^ 63 - 2)) epoch ++
        List.replicate (2 ^ SequenceBit - 1) epoch) = ⟨0,2 ^ 63 - 1,255,0⟩ := by
    rw [Runs.run_append,hB,h3,h255]
  have hfirst : Runs.trace snowflakeStep issued ⟨0,0,255,0⟩ [epoch] = [(16777216,⟨0,1,0,0⟩)] := by
    decide
  have hlast : Runs.trace snowflakeStep issued ⟨0,2 ^ 63 - 1,255,0⟩ [epoch] = [(0,⟨0,-2 ^ 63,0,0⟩)] := by
    decide
  rw [hsplit,Runs.trace_append,Runs.trace_append,Runs.trace_append,hC,hfirst,hlast,
    List.map_append] at hpair
  have hbad := (List.pairwise_append.mp hpair).2.2 16777216
    (List.mem_map.mpr ⟨_,List.mem_append_left _ (List.mem_append_left _ (List.mem_singleton_self _)),rfl⟩)
    0 (List.mem_map.mpr ⟨_,List.mem_singleton_self _,rfl⟩)
  exact absurd hbad (by decide)

end Gkit.Generator
