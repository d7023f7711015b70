import Gkit.Chord.Steps
import Gkit.Library.Fencing
import Mathlib

/-!
Lease fencing. `ApplyChordMemberPublishOutcome` and `ApplyChordCallbackPublishOutcome`
accept a lease only when the record shows the lease's state, owner and version. Every
accepted change of a member bumps its `Version` and every change of the callback bumps
`CallbackVersion`, so a lease matches only while its record is as the claim left it.

The member lease carries the member's stored `Ordinal` while the claim looks the member
up by position; the two agree when the registration numbers its members by position,
as `Server` does, and fencing is stated for such deliveries.
-/

namespace Gkit.Chord

variable {V Sig : Type}

/-- The callback's own fields, those every callback change writes under a new
`CallbackVersion`. -/
structure ChordCallbackView where
  state : ChordCallbackState
  version : Int
  leaseOwner : String
  leaseExpiresAt : Time
  attempts : Int
  nextAttemptAt : Time
  confirmationAt : Time
  lastError : String
  payload : Bytes
  terminalOutcome : Option CallbackTerminalOutcome
  terminalAt : Time
  terminalExpireAt : Option Time
deriving DecidableEq, Repr

def ChordDelivery.callback (d : ChordDelivery V) : ChordCallbackView where
  state := d.callbackState
  version := d.callbackVersion
  leaseOwner := d.callbackLeaseOwner
  leaseExpiresAt := d.callbackLeaseExpiresAt
  attempts := d.callbackAttempts
  nextAttemptAt := d.callbackNextAttemptAt
  confirmationAt := d.callbackConfirmationAt
  lastError := d.callbackLastError
  payload := d.callbackPayload
  terminalOutcome := d.terminalOutcome
  terminalAt := d.terminalAt
  terminalExpireAt := d.terminalExpireAt

/-- Every member is stored at the position its `Ordinal` names. -/
def OrdinalsIndexed (d : ChordDelivery V) : Prop :=
  ∀ (i : Nat) (h : i < d.members.length), d.members[i].ordinal = i

instance (d : ChordDelivery V) : Decidable (OrdinalsIndexed d) := by
  unfold OrdinalsIndexed
  infer_instance

theorem OrdinalsIndexed.ordinal {d : ChordDelivery V} (h : OrdinalsIndexed d) {i : Nat}
    {m : ChordMemberPublication V} (hm : d.members[i]? = some m) : m.ordinal = i := by
  obtain ⟨hi,rfl⟩ := List.getElem?_eq_some_iff.mp hm
  exact h i hi

/-- Each member unchanged or at a higher version, and the callback unchanged or at a
higher `CallbackVersion`. -/
def VersionsAdvance (d d' : ChordDelivery V) : Prop :=
  Fencing.Pointwise ChordMemberPublication.version d.members d'.members ∧
    Fencing.Advances ChordCallbackView.version d.callback d'.callback

theorem VersionsAdvance.refl (d : ChordDelivery V) : VersionsAdvance d d :=
  ⟨.refl _,.refl _⟩

theorem VersionsAdvance.trans {d₁ d₂ d₃ : ChordDelivery V} (h₁ : VersionsAdvance d₁ d₂)
    (h₂ : VersionsAdvance d₂ d₃) : VersionsAdvance d₁ d₃ :=
  ⟨h₁.1.trans h₂.1,h₁.2.trans h₂.2⟩

/-! ### Versions of the records each transition writes -/

@[simp] theorem memberAfterPublish_version (m : ChordMemberPublication V)
    (outcome : ChordPublishOutcome) (now : Time) :
    (memberAfterPublish m outcome now).version = m.version := by
  unfold memberAfterPublish
  split <;> split <;> rfl

theorem recordCallbackPublish_callbackVersion (d : ChordDelivery V)
    (outcome : ChordPublishOutcome) (now : Time) :
    (recordCallbackPublish d outcome now).callbackVersion = wrapInt64 (d.callbackVersion + 1) := by
  unfold recordCallbackPublish
  split <;> rfl

theorem readyCallback_callbackVersion (d : ChordDelivery V) (payload : Bytes) :
    (readyCallback d payload).callbackVersion = wrapInt64 (d.callbackVersion + 1) := by
  unfold readyCallback
  split <;> rfl

theorem deliverCallback_callbackVersion (d : ChordDelivery V)
    (outcome : CallbackTerminalOutcome) (now wall : Time) :
    (deliverCallback d outcome now wall).callbackVersion = wrapInt64 (d.callbackVersion + 1) := by
  simp [deliverCallback]

/-- `setChordSuppressed` leaves a closed callback alone and bumps the version of an
open one. -/
theorem setChordSuppressed_callback (d : ChordDelivery V) (now wall : Time) :
    (setChordSuppressed d now wall).callback = d.callback ∨
      (setChordSuppressed d now wall).callbackVersion = wrapInt64 (d.callbackVersion + 1) := by
  by_cases hc : d.Closed
  · rw [setChordSuppressed_of_closed hc]
    exact .inl rfl
  · rw [setChordSuppressed_of_open hc]
    exact .inr rfl

theorem recordMemberPublish_callback_bump (d : ChordDelivery V) (i : Nat)
    (m : ChordMemberPublication V) (outcome : ChordPublishOutcome) (now wall : Time) :
    (recordMemberPublish d i m outcome now wall).callback = d.callback ∨
      (recordMemberPublish d i m outcome now wall).callbackVersion =
        wrapInt64 (d.callbackVersion + 1) := by
  unfold recordMemberPublish
  split
  · exact setChordSuppressed_callback d now wall
  · exact .inl rfl

/-! ### Versions stay below `MaxInt64` -/

/-- Every member's `Version` and the `CallbackVersion` lie in `[0, k]`. -/
def VersionsWithin (k : Int) (d : ChordDelivery V) : Prop :=
  (∀ m ∈ d.members, 0 ≤ m.version ∧ m.version ≤ k) ∧ 0 ≤ d.callbackVersion ∧ d.callbackVersion ≤ k

instance (k : Int) (d : ChordDelivery V) : Decidable (VersionsWithin k d) := by
  unfold VersionsWithin
  infer_instance

theorem VersionsWithin.mono {k k' : Int} {d : ChordDelivery V} (h : VersionsWithin k d)
    (hle : k ≤ k') : VersionsWithin k' d :=
  ⟨fun m hm => ⟨(h.1 m hm).1,(h.1 m hm).2.trans hle⟩,h.2.1,h.2.2.trans hle⟩

/-- Below `MaxInt64` a version's `++` does not wrap. -/
theorem wrapInt64_succ {v k : Int} (h0 : 0 ≤ v) (hv : v ≤ k) (hk : k < 2 ^ 63 - 1) :
    wrapInt64 (v + 1) = v + 1 :=
  Int.bmod_eq_of_le (by omega) (by omega)

theorem member?_mem {d : ChordDelivery V} {o : Int} {i : Nat} {m : ChordMemberPublication V}
    (h : d.member? o = some (i,m)) : m ∈ d.members :=
  List.mem_of_getElem? (member?_some h).2

section
variable {codec : TaskCodec V Sig} {k : Int}

/-- Members left as they were. -/
theorem members_same {ms : List (ChordMemberPublication V)}
    (hb : ∀ x ∈ ms, 0 ≤ x.version ∧ x.version ≤ k) :
    Fencing.Pointwise ChordMemberPublication.version ms ms ∧
      ∀ x ∈ ms, 0 ≤ x.version ∧ x.version ≤ k + 1 :=
  ⟨.refl _,fun x hx => by have := hb x hx; omega⟩

/-- A member replaced at its own position by the record one version on. -/
theorem members_set_bump {d : ChordDelivery V} {i : Nat} {m m' : ChordMemberPublication V}
    (hb : ∀ x ∈ d.members, 0 ≤ x.version ∧ x.version ≤ k) (hk : k < 2 ^ 63 - 1)
    (hm : d.members[i]? = some m) (hv : m'.version = wrapInt64 (m.version + 1)) :
    Fencing.Pointwise ChordMemberPublication.version d.members (d.members.set i m') ∧
      ∀ x ∈ d.members.set i m', 0 ≤ x.version ∧ x.version ≤ k + 1 := by
  have hmb := hb m (List.mem_of_getElem? hm)
  rw [wrapInt64_succ hmb.1 hmb.2 hk] at hv
  refine ⟨Fencing.Pointwise.set hm (by omega),fun x hx => ?_⟩
  rcases List.mem_or_eq_of_mem_set hx with hx | rfl
  · have := hb x hx
    omega
  · omega

/-- Member versions only grow along an accepted change, each by one at most. -/
theorem members_move {d d' : ChordDelivery V} (h : ChordMove codec d d')
    (hb : ∀ x ∈ d.members, 0 ≤ x.version ∧ x.version ≤ k) (hk : k < 2 ^ 63 - 1) :
    Fencing.Pointwise ChordMemberPublication.version d.members d'.members ∧
      ∀ x ∈ d'.members, 0 ≤ x.version ∧ x.version ≤ k + 1 := by
  cases h with
  | prepare now =>
    rw [prepareChordMembers_members]
    refine ⟨Fencing.Pointwise.map fun m hm => ?_,fun x hx => ?_⟩
    · have hmb := hb m hm
      split
      · exact .of_lt (show m.version < wrapInt64 (m.version + 1) by
          rw [wrapInt64_succ hmb.1 hmb.2 hk]; omega)
      · exact .refl m
    · obtain ⟨m,hm,rfl⟩ := List.mem_map.mp hx
      have hmb := hb m hm
      split
      · show 0 ≤ wrapInt64 (m.version + 1) ∧ wrapInt64 (m.version + 1) ≤ k + 1
        rw [wrapInt64_succ hmb.1 hmb.2 hk]
        omega
      · omega
  | claimMember i m owner expiresAt now hm hs => exact members_set_bump hb hk hm rfl
  | memberPublish i m outcome now wall hm hs =>
    rw [recordMemberPublish_members]
    exact members_set_bump hb hk hm (by rw [memberAfterPublish_version])
  | memberFailed i m r now wall hm hr hf =>
    rw [setChordSuppressed_members, recordReceipt_members]
    exact members_set_bump hb hk hm rfl
  | memberPending i m r now hm hr ho hs =>
    rw [recordReceipt_members]
    exact members_set_bump hb hk hm rfl
  | memberComplete i m r now payload hm hr ho hs hb' =>
    rw [readyCallback_members, recordReceipt_members]
    exact members_set_bump hb hk hm rfl
  | claimCallback owner expiresAt now ha =>
    rw [leasedCallback_members]
    exact members_same hb
  | callbackPublish outcome now hs =>
    rw [recordCallbackPublish_members]
    exact members_same hb
  | callbackTerminal outcome now wall ho =>
    rw [deliverCallback_members]
    exact members_same hb

/-- A callback left as it was, or written one `CallbackVersion` on. -/
theorem callback_bump {d d' : ChordDelivery V}
    (h : d'.callback = d.callback ∨ d'.callbackVersion = wrapInt64 (d.callbackVersion + 1))
    (hb : 0 ≤ d.callbackVersion ∧ d.callbackVersion ≤ k) (hk : k < 2 ^ 63 - 1) :
    Fencing.Advances ChordCallbackView.version d.callback d'.callback ∧
      0 ≤ d'.callbackVersion ∧ d'.callbackVersion ≤ k + 1 := by
  rcases h with h | h
  · have hv : d'.callbackVersion = d.callbackVersion := congrArg ChordCallbackView.version h
    exact ⟨.inl h,by omega,by omega⟩
  · rw [wrapInt64_succ hb.1 hb.2 hk] at h
    exact ⟨.of_lt (show d.callbackVersion < d'.callbackVersion by omega),by omega,by omega⟩

/-- The callback view changes only under the next `CallbackVersion`. -/
theorem callback_move {d d' : ChordDelivery V} (h : ChordMove codec d d')
    (hb : 0 ≤ d.callbackVersion ∧ d.callbackVersion ≤ k) (hk : k < 2 ^ 63 - 1) :
    Fencing.Advances ChordCallbackView.version d.callback d'.callback ∧
      0 ≤ d'.callbackVersion ∧ d'.callbackVersion ≤ k + 1 := by
  refine callback_bump ?_ hb hk
  cases h with
  | prepare now => exact .inl rfl
  | claimMember i m owner expiresAt now hm hs => exact .inl rfl
  | memberPublish i m outcome now wall hm hs => exact recordMemberPublish_callback_bump d i m outcome now wall
  | memberFailed i m r now wall hm hr hf =>
    exact setChordSuppressed_callback (recordReceipt d i m r now) now wall
  | memberPending i m r now hm hr ho hs => exact .inl rfl
  | memberComplete i m r now payload hm hr ho hs hb' =>
    exact .inr (readyCallback_callbackVersion (recordReceipt d i m r now) payload)
  | claimCallback owner expiresAt now ha => exact .inr rfl
  | callbackPublish outcome now hs => exact .inr (recordCallbackPublish_callbackVersion d outcome now)
  | callbackTerminal outcome now wall ho => exact .inr (deliverCallback_callbackVersion d outcome now wall)

/-- One step from versions in `[0, k]`, `k < MaxInt64`: every version stays or moves one on. -/
theorem versionsAdvance_step {d : ChordDelivery V} (hb : VersionsWithin k d) (hk : k < 2 ^ 63 - 1)
    (t : ChordTransition V) :
    VersionsAdvance d (chordStep codec d t) ∧ VersionsWithin (k + 1) (chordStep codec d t) := by
  rcases chordStep_move codec d t with h | h
  · rw [h]
    exact ⟨.refl d,hb.mono (by omega)⟩
  · obtain ⟨hm,hmb⟩ := members_move h hb.1 hk
    obtain ⟨hc,hcb⟩ := callback_move h hb.2 hk
    exact ⟨⟨hm,hc⟩,hmb,hcb⟩

/-- The run lemma: along a run that keeps every version below `MaxInt64`, versions only grow,
by one a step at most. -/
theorem versionsAdvance_run {d : ChordDelivery V} (hb : VersionsWithin k d) (ts : List (ChordTransition V))
    (hk : k + ts.length < 2 ^ 63 - 1) :
    VersionsAdvance d (Runs.run (chordStep codec) d ts) ∧
      VersionsWithin (k + ts.length) (Runs.run (chordStep codec) d ts) := by
  induction ts generalizing d k with
  | nil => exact ⟨.refl d,by simpa using hb⟩
  | cons t ts ih =>
    rw [List.length_cons,Nat.cast_add,Nat.cast_one] at hk
    obtain ⟨hadv,hb'⟩ := @versionsAdvance_step _ _ codec _ _ hb (by omega) t
    obtain ⟨hadv',hb''⟩ := ih hb' (by omega)
    rw [Runs.run_cons,List.length_cons,Nat.cast_add,Nat.cast_one]
    exact ⟨hadv.trans hadv',by rwa [Int.add_assoc,Int.add_comm 1] at hb''⟩

end

/-! ### Leases -/

theorem member?_of_members_set {d d' : ChordDelivery V} {o : Int} {i : Nat}
    {m x : ChordMemberPublication V} (hm : d.member? o = some (i,m))
    (h : d'.members = d.members.set i x) : d'.member? o = some (i,x) := by
  obtain ⟨rfl,hmi⟩ := member?_some hm
  have hi : i < d.members.length := (List.getElem?_eq_some_iff.mp hmi).1
  simp [ChordDelivery.member?, h, hi]

theorem member?_advances {d d' : ChordDelivery V} (h : VersionsAdvance d d') {o : Int} {i : Nat}
    {m : ChordMemberPublication V} (hm : d.member? o = some (i,m)) :
    ∃ m', d'.member? o = some (i,m') ∧ Fencing.Advances ChordMemberPublication.version m m' := by
  obtain ⟨rfl,hmi⟩ := member?_some hm
  obtain ⟨m',hm',hadv⟩ := h.1.get hmi
  refine ⟨m',?_,hadv⟩
  simp [ChordDelivery.member?, hm']

/-- The fencing check of `ApplyChordMemberPublishOutcome`: a member showing another
version refuses the lease and keeps the delivery. -/
theorem applyChordMemberPublishOutcome_stale {d : ChordDelivery V} {lease : ChordMemberLease}
    {i : Nat} {m : ChordMemberPublication V} (hm : d.member? lease.ordinal = some (i,m))
    (hv : m.version ≠ lease.version) (outcome : ChordPublishOutcome) (wall : Time) :
    applyChordMemberPublishOutcome d lease outcome wall = (d,some .leaseLost) := by
  unfold applyChordMemberPublishOutcome
  rw [hm]
  exact if_pos (.inr (.inr hv))

theorem applyChordMemberPublishOutcome_version {d : ChordDelivery V} {lease : ChordMemberLease}
    {i : Nat} {m : ChordMemberPublication V} (hm : d.member? lease.ordinal = some (i,m))
    {outcome : ChordPublishOutcome} {wall : Time}
    (h : (applyChordMemberPublishOutcome d lease outcome wall).2 = none) : m.version = lease.version := by
  by_contra hv
  rw [applyChordMemberPublishOutcome_stale hm hv] at h
  cases h

/-- An accepted outcome writes the member under the version after the lease's. -/
theorem applyChordMemberPublishOutcome_bumps {d : ChordDelivery V} {lease : ChordMemberLease}
    {outcome : ChordPublishOutcome} {wall : Time}
    (h : (applyChordMemberPublishOutcome d lease outcome wall).2 = none) :
    ∃ i m', (applyChordMemberPublishOutcome d lease outcome wall).1.member? lease.ordinal = some (i,m') ∧
      m'.version = wrapInt64 (lease.version + 1) := by
  generalize hr : applyChordMemberPublishOutcome d lease outcome wall = r at h ⊢
  obtain ⟨d',err⟩ := r
  cases h
  obtain ⟨i,m,hm,-,-,hv,rfl⟩ := applyChordMemberPublishOutcome_ok hr
  refine ⟨i,_,member?_of_members_set hm (recordMemberPublish_members ..),?_⟩
  simp [hv]

theorem applyChordCallbackPublishOutcome_stale {d : ChordDelivery V} {lease : ChordCallbackLease}
    (hv : d.callbackVersion ≠ lease.version) (outcome : ChordPublishOutcome) (wall : Time) :
    applyChordCallbackPublishOutcome d lease outcome wall = (d,some .leaseLost) := by
  unfold applyChordCallbackPublishOutcome
  exact if_pos (.inr (.inr hv))

theorem applyChordCallbackPublishOutcome_version {d : ChordDelivery V}
    {lease : ChordCallbackLease} {outcome : ChordPublishOutcome} {wall : Time}
    (h : (applyChordCallbackPublishOutcome d lease outcome wall).2 = none) :
    d.callbackVersion = lease.version := by
  by_contra hv
  rw [applyChordCallbackPublishOutcome_stale hv] at h
  cases h

theorem applyChordCallbackPublishOutcome_bumps {d : ChordDelivery V} {lease : ChordCallbackLease}
    {outcome : ChordPublishOutcome} {wall : Time}
    (h : (applyChordCallbackPublishOutcome d lease outcome wall).2 = none) :
    (applyChordCallbackPublishOutcome d lease outcome wall).1.callbackVersion = wrapInt64 (lease.version + 1) := by
  generalize hr : applyChordCallbackPublishOutcome d lease outcome wall = r at h ⊢
  obtain ⟨d',err⟩ := r
  cases h
  obtain ⟨-,-,hv,rfl⟩ := applyChordCallbackPublishOutcome_ok hr
  rw [recordCallbackPublish_callbackVersion, hv]

/-- A granted member claim on a delivery numbered by position: the lease names the
claimed member, which shows the lease's version. -/
theorem claimChordMember_lease {d : ChordDelivery V} (hidx : OrdinalsIndexed d)
    {claim : ChordMemberClaim} {wall : Time} (hc : (claimChordMember d claim wall).2.2 = (true,none)) :
    ∃ i m, (claimChordMember d claim wall).1.member? (claimChordMember d claim wall).2.1.ordinal =
      some (i,m) ∧ m.version = (claimChordMember d claim wall).2.1.version := by
  generalize hr : claimChordMember d claim wall = r at hc ⊢
  obtain ⟨d₁,lease,claimed,err⟩ := r
  simp only [Prod.mk.injEq] at hc
  obtain ⟨rfl,rfl⟩ := hc
  obtain ⟨-,i,m,hm,-,-,rfl,rfl⟩ := claimChordMember_claimed hr
  have ho : m.ordinal = (i : Int) := hidx.ordinal (member?_some hm).2
  have hm' : d.member? m.ordinal = some (i,m) := by rw [ho, ← (member?_some hm).1]; exact hm
  exact ⟨i,_,member?_of_members_set hm' rfl,rfl⟩

theorem claimChordCallback_lease {d : ChordDelivery V} {claim : ChordCallbackClaim} {wall : Time}
    (hc : (claimChordCallback d claim wall).2.2 = (true,none)) :
    (claimChordCallback d claim wall).1.callbackVersion = (claimChordCallback d claim wall).2.1.version := by
  generalize hr : claimChordCallback d claim wall = r at hc ⊢
  obtain ⟨d₁,lease,claimed,err⟩ := r
  simp only [Prod.mk.injEq] at hc
  obtain ⟨rfl,rfl⟩ := hc
  obtain ⟨-,-,rfl,rfl⟩ := claimChordCallback_claimed hr
  rfl

theorem chordStep_memberPublish_accepted (codec : TaskCodec V Sig) {d : ChordDelivery V}
    {lease : ChordMemberLease} {outcome : ChordPublishOutcome} {wall : Time}
    (h : (applyChordMemberPublishOutcome d lease outcome wall).2 = none) :
    chordStep codec d (.applyChordMemberPublishOutcome lease outcome wall) =
      (applyChordMemberPublishOutcome d lease outcome wall).1 := by
  simp only [chordStep, commitChord, h, and_self, if_true]

theorem chordStep_callbackPublish_accepted (codec : TaskCodec V Sig) {d : ChordDelivery V}
    {lease : ChordCallbackLease} {outcome : ChordPublishOutcome} {wall : Time}
    (h : (applyChordCallbackPublishOutcome d lease outcome wall).2 = none) :
    chordStep codec d (.applyChordCallbackPublishOutcome lease outcome wall) =
      (applyChordCallbackPublishOutcome d lease outcome wall).1 := by
  simp only [chordStep, commitChord, h, and_self, if_true]

/-- Fencing of a member lease granted at `d₁`, over every later run of at most `N` steps: the
lease is accepted only while its member is as the claim left it, a stale lease is refused with
the delivery unchanged, and after one accepted outcome it is refused ever after. -/
def MemberLeaseFenced (codec : TaskCodec V Sig) (N : Nat) (d₁ : ChordDelivery V)
    (lease : ChordMemberLease) : Prop :=
  ∀ (ts : List (ChordTransition V)) (outcome : ChordPublishOutcome) (wall : Time), ts.length ≤ N →
    let d₂ := Runs.run (chordStep codec) d₁ ts
    ((applyChordMemberPublishOutcome d₂ lease outcome wall).2 = none →
      d₂.member? lease.ordinal = d₁.member? lease.ordinal) ∧
    (d₂.member? lease.ordinal ≠ d₁.member? lease.ordinal →
      applyChordMemberPublishOutcome d₂ lease outcome wall = (d₂,some .leaseLost)) ∧
    ((applyChordMemberPublishOutcome d₂ lease outcome wall).2 = none →
      ∀ (ts' : List (ChordTransition V)) (outcome' : ChordPublishOutcome) (wall' : Time),
        ts.length + 1 + ts'.length ≤ N →
        let d₃ := Runs.run (chordStep codec) d₂ (.applyChordMemberPublishOutcome lease outcome wall :: ts')
        applyChordMemberPublishOutcome d₃ lease outcome' wall' = (d₃,some .leaseLost))

/-- The same for a callback lease, with the callback's fields for the member. -/
def CallbackLeaseFenced (codec : TaskCodec V Sig) (N : Nat) (d₁ : ChordDelivery V)
    (lease : ChordCallbackLease) : Prop :=
  ∀ (ts : List (ChordTransition V)) (outcome : ChordPublishOutcome) (wall : Time), ts.length ≤ N →
    let d₂ := Runs.run (chordStep codec) d₁ ts
    ((applyChordCallbackPublishOutcome d₂ lease outcome wall).2 = none → d₂.callback = d₁.callback) ∧
    (d₂.callback ≠ d₁.callback →
      applyChordCallbackPublishOutcome d₂ lease outcome wall = (d₂,some .leaseLost)) ∧
    ((applyChordCallbackPublishOutcome d₂ lease outcome wall).2 = none →
      ∀ (ts' : List (ChordTransition V)) (outcome' : ChordPublishOutcome) (wall' : Time),
        ts.length + 1 + ts'.length ≤ N →
        let d₃ := Runs.run (chordStep codec) d₂ (.applyChordCallbackPublishOutcome lease outcome wall :: ts')
        applyChordCallbackPublishOutcome d₃ lease outcome' wall' = (d₃,some .leaseLost))

section
variable {codec : TaskCodec V Sig} {k : Int} {N : Nat}

/-- A member record showing the lease's version is fenced by it for `N` steps, while the
versions stay below `MaxInt64`. -/
theorem memberLeaseFenced {d₁ : ChordDelivery V} {lease : ChordMemberLease} {i : Nat}
    {m₁ : ChordMemberPublication V} (hm : d₁.member? lease.ordinal = some (i,m₁))
    (hv : m₁.version = lease.version) (hb : VersionsWithin k d₁) (hN : k + N < 2 ^ 63 - 1) :
    MemberLeaseFenced codec N d₁ lease := by
  intro ts outcome wall hts
  obtain ⟨hrun,hb₂⟩ := @versionsAdvance_run _ _ codec _ _ hb ts (by omega)
  obtain ⟨m₂,hm₂,hadv⟩ := member?_advances hrun hm
  refine ⟨?_,?_,?_⟩
  · intro h
    have hv₂ := applyChordMemberPublishOutcome_version hm₂ h
    rw [hm₂,hm,hadv.eq_of_ver_eq (hv₂.trans hv.symm)]
  · intro hne
    apply applyChordMemberPublishOutcome_stale hm₂
    intro hv₂
    apply hne
    rw [hm₂,hm,hadv.eq_of_ver_eq (hv₂.trans hv.symm)]
  · intro h ts' outcome' wall' hts'
    have hv₂ := applyChordMemberPublishOutcome_version hm₂ h
    have hm₂b := hb₂.1 m₂ (member?_mem hm₂)
    obtain ⟨j,m₃,hm₃,hv₃⟩ := applyChordMemberPublishOutcome_bumps h
    rw [← hv₂,wrapInt64_succ hm₂b.1 hm₂b.2 (by omega)] at hv₃
    have hb₃ := (@versionsAdvance_step _ _ codec _ _ hb₂ (by omega)
      (.applyChordMemberPublishOutcome lease outcome wall)).2
    rw [chordStep_memberPublish_accepted codec h] at hb₃
    rw [Runs.run_cons,chordStep_memberPublish_accepted codec h]
    obtain ⟨m₄,hm₄,hadv'⟩ := member?_advances (@versionsAdvance_run _ _ codec _ _ hb₃ ts'
      (by omega)).1 hm₃
    apply applyChordMemberPublishOutcome_stale hm₄
    have := hadv'.ver_le
    omega

theorem callbackLeaseFenced {d₁ : ChordDelivery V} {lease : ChordCallbackLease}
    (hv : d₁.callbackVersion = lease.version) (hb : VersionsWithin k d₁) (hN : k + N < 2 ^ 63 - 1) :
    CallbackLeaseFenced codec N d₁ lease := by
  intro ts outcome wall hts
  obtain ⟨hrun,hb₂⟩ := @versionsAdvance_run _ _ codec _ _ hb ts (by omega)
  have hadv := hrun.2
  refine ⟨?_,?_,?_⟩
  · intro h
    exact hadv.eq_of_ver_eq ((applyChordCallbackPublishOutcome_version h).trans hv.symm)
  · intro hne
    apply applyChordCallbackPublishOutcome_stale
    intro hv₂
    exact hne (hadv.eq_of_ver_eq (hv₂.trans hv.symm))
  · intro h ts' outcome' wall' hts'
    have hv₂ := applyChordCallbackPublishOutcome_version h
    have hv₃ := applyChordCallbackPublishOutcome_bumps h
    rw [← hv₂,wrapInt64_succ hb₂.2.1 hb₂.2.2 (by omega)] at hv₃
    have hb₃ := (@versionsAdvance_step _ _ codec _ _ hb₂ (by omega)
      (.applyChordCallbackPublishOutcome lease outcome wall)).2
    rw [chordStep_callbackPublish_accepted codec h] at hb₃
    rw [Runs.run_cons,chordStep_callbackPublish_accepted codec h]
    have hadv' := (@versionsAdvance_run _ _ codec _ _ hb₃ ts' (by omega)).1.2.ver_le
    apply applyChordCallbackPublishOutcome_stale
    change _ ≤ ChordCallbackView.version (ChordDelivery.callback _) at hadv'
    simp only [ChordDelivery.callback] at hadv'
    omega

theorem chordStep_claimMember_claimed (codec : TaskCodec V Sig) {d : ChordDelivery V}
    {claim : ChordMemberClaim} {wall : Time} (hc : (claimChordMember d claim wall).2.2 = (true,none)) :
    chordStep codec d (.claimChordMember claim wall) = (claimChordMember d claim wall).1 := by
  simp only [chordStep, commitChord, hc, and_self, if_true]

theorem chordStep_claimCallback_claimed (codec : TaskCodec V Sig) {d : ChordDelivery V}
    {claim : ChordCallbackClaim} {wall : Time} (hc : (claimChordCallback d claim wall).2.2 = (true,none)) :
    chordStep codec d (.claimChordCallback claim wall) = (claimChordCallback d claim wall).1 := by
  simp only [chordStep, commitChord, hc, and_self, if_true]

/-- Member leases of a delivery numbered by position, and callback leases, are fenced by
the versions along every run that keeps them below `MaxInt64`: from versions in `[0, k]`,
runs of `N` steps with `k + N + 1 < MaxInt64`. Every committed step leaves each member and the
callback unchanged or one version on. -/
theorem chord_leases_fenced {d e : ChordDelivery V} (hidx : OrdinalsIndexed d)
    (hd : VersionsWithin k d) (he : VersionsWithin k e) (hN : k + N + 1 < 2 ^ 63 - 1)
    {claim : ChordMemberClaim} {wall : Time} (hc : (claimChordMember d claim wall).2.2 = (true,none))
    {cclaim : ChordCallbackClaim} {cwall : Time}
    (hcc : (claimChordCallback e cclaim cwall).2.2 = (true,none)) :
    MemberLeaseFenced codec N (claimChordMember d claim wall).1 (claimChordMember d claim wall).2.1 ∧
    CallbackLeaseFenced codec N (claimChordCallback e cclaim cwall).1
      (claimChordCallback e cclaim cwall).2.1 ∧
    ∀ (j : Int) (d' : ChordDelivery V) (t : ChordTransition V), VersionsWithin j d' →
      j < 2 ^ 63 - 1 →
      VersionsAdvance d' (chordStep codec d' t) ∧ VersionsWithin (j + 1) (chordStep codec d' t) := by
  obtain ⟨i,m,hm,hv⟩ := claimChordMember_lease hidx hc
  have hd₁ := (@versionsAdvance_step _ _ codec _ _ hd (by omega) (.claimChordMember claim wall)).2
  have he₁ := (@versionsAdvance_step _ _ codec _ _ he (by omega) (.claimChordCallback cclaim cwall)).2
  rw [chordStep_claimMember_claimed codec hc] at hd₁
  rw [chordStep_claimCallback_claimed codec hcc] at he₁
  exact ⟨memberLeaseFenced hm hv hd₁ (by omega),
    callbackLeaseFenced (claimChordCallback_lease hcc) he₁ (by omega),
    fun _ _ t hb hk => versionsAdvance_step hb hk t⟩

end

/-- The sample chord: its member claimed after preparation, its callback claimed once the
member's SUCCESS receipt made it READY, both fenced for `2^62` steps. -/
theorem chord_leases_fenced_sample :
    OrdinalsIndexed (sampleRun [] [.prepareChordMembers ⟨1⟩]) ∧
    VersionsWithin 2 (sampleRun [] [.prepareChordMembers ⟨1⟩]) ∧
    VersionsWithin 2 (sampleRun [] [.applyChordMemberTerminal 0 "t" .success none ⟨2⟩ ⟨2⟩]) ∧
    (2 : Int) + ((2 ^ 62 : Nat) : Int) + 1 < 2 ^ 63 - 1 ∧
    (claimChordMember (sampleRun [] [.prepareChordMembers ⟨1⟩]) ⟨0,"w",⟨2⟩,0⟩ ⟨2⟩).2.2 =
      (true,none) ∧
    (claimChordCallback (sampleRun [] [.applyChordMemberTerminal 0 "t" .success none ⟨2⟩ ⟨2⟩])
      ⟨"w",⟨3⟩,0⟩ ⟨3⟩).2.2 = (true,none) ∧
    (MemberLeaseFenced (sampleCodec []) (2 ^ 62)
        (claimChordMember (sampleRun [] [.prepareChordMembers ⟨1⟩]) ⟨0,"w",⟨2⟩,0⟩ ⟨2⟩).1
        (claimChordMember (sampleRun [] [.prepareChordMembers ⟨1⟩]) ⟨0,"w",⟨2⟩,0⟩ ⟨2⟩).2.1 ∧
      CallbackLeaseFenced (sampleCodec []) (2 ^ 62)
        (claimChordCallback (sampleRun [] [.applyChordMemberTerminal 0 "t" .success none ⟨2⟩ ⟨2⟩])
          ⟨"w",⟨3⟩,0⟩ ⟨3⟩).1
        (claimChordCallback (sampleRun [] [.applyChordMemberTerminal 0 "t" .success none ⟨2⟩ ⟨2⟩])
          ⟨"w",⟨3⟩,0⟩ ⟨3⟩).2.1 ∧
      ∀ (j : Int) (d' : ChordDelivery GoValue) (t : ChordTransition GoValue), VersionsWithin j d' →
        j < 2 ^ 63 - 1 →
        VersionsAdvance d' (chordStep (sampleCodec []) d' t) ∧
          VersionsWithin (j + 1) (chordStep (sampleCodec []) d' t)) := by
  have hidx : OrdinalsIndexed (sampleRun [] [.prepareChordMembers ⟨1⟩]) := by decide
  have hd : VersionsWithin 2 (sampleRun [] [.prepareChordMembers ⟨1⟩]) := by decide
  have he : VersionsWithin 2 (sampleRun [] [.applyChordMemberTerminal 0 "t" .success none ⟨2⟩ ⟨2⟩]) := by
    decide
  have hN : (2 : Int) + ((2 ^ 62 : Nat) : Int) + 1 < 2 ^ 63 - 1 := by norm_num
  have hc : (claimChordMember (sampleRun [] [.prepareChordMembers ⟨1⟩]) ⟨0,"w",⟨2⟩,0⟩ ⟨2⟩).2.2 =
      (true,none) := by decide
  have hcc : (claimChordCallback (sampleRun [] [.applyChordMemberTerminal 0 "t" .success none ⟨2⟩ ⟨2⟩])
      ⟨"w",⟨3⟩,0⟩ ⟨3⟩).2.2 = (true,none) := by decide
  exact ⟨hidx,hd,he,hN,hc,hcc,chord_leases_fenced hidx hd he hN hc hcc⟩

/-- Two members registered under each other's positions as ordinals, prepared. -/
def swappedDelivery : ChordDelivery GoValue :=
  prepareChordMembers (newChordDelivery
    { sampleRegistration with members := [⟨1,"a",[]⟩,⟨0,"b",[]⟩] } "owner" ⟨1⟩) ⟨1⟩

/-- The claim of position 0 hands out a lease naming ordinal 1. Once position 1 is claimed
by the same owner, that lease is accepted at ordinal 1, although the latest claim of
ordinal 1 returned another lease. -/
theorem swapped_ordinals_cross_leases :
    (claimChordMember swappedDelivery ⟨0,"w",⟨2⟩,0⟩ ⟨2⟩).2.2 = (true,none) ∧
    (claimChordMember (claimChordMember swappedDelivery ⟨0,"w",⟨2⟩,0⟩ ⟨2⟩).1
      ⟨1,"w",⟨2⟩,0⟩ ⟨2⟩).2.2 = (true,none) ∧
    (claimChordMember swappedDelivery ⟨0,"w",⟨2⟩,0⟩ ⟨2⟩).2.1.ordinal = 1 ∧
    (claimChordMember swappedDelivery ⟨0,"w",⟨2⟩,0⟩ ⟨2⟩).2.1 ≠
      (claimChordMember (claimChordMember swappedDelivery ⟨0,"w",⟨2⟩,0⟩ ⟨2⟩).1
        ⟨1,"w",⟨2⟩,0⟩ ⟨2⟩).2.1 ∧
    (applyChordMemberPublishOutcome
      (claimChordMember (claimChordMember swappedDelivery ⟨0,"w",⟨2⟩,0⟩ ⟨2⟩).1
        ⟨1,"w",⟨2⟩,0⟩ ⟨2⟩).1
      (claimChordMember swappedDelivery ⟨0,"w",⟨2⟩,0⟩ ⟨2⟩).2.1
      ⟨.succeeded,⟨3⟩,.zero,.zero,""⟩ ⟨3⟩).2 = none := by
  decide

end Gkit.Chord
