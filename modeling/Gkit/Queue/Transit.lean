import Gkit.Queue.Reliable

/-!
The delayed-task transit of `delayed_transit.go` and `produceDelayedTasks`. A delayed task
waits in the delayed set under its ETA; a producer claims the earliest due one into the
transit set, republishes it to the ready list, and then removes it from transit, or on a
failed publish restores it to the delayed set. A recovery pass moves transit members whose
claim is older than a timeout back to the delayed set. Members are keyed by body.

Each script and each Redis command is one atomic step; a producer is a program counter
between its steps, and may stop forever between any two of them. The publish is the
republication of the claimed body to the ready list, successful or not. The ghost list
`scheduled` records every body that entered the delayed set.
-/

namespace Gkit.Queue

open Redis

/-- The three keys: the delayed set (body ↦ ETA), the transit set (body ↦ claim time), and the
ready list of the target queue. -/
structure TransitStore where
  delayed : ZSet Bytes
  transit : ZSet Bytes
  ready : List Bytes
deriving DecidableEq

/-- `delayedClaimScriptSource` with `ARGV[1] = max` and `TIME = now`: the earliest member due
by `max` moves to the transit set, scored with the claim time; the reply is the member and
its ETA, or `false`. -/
def delayedClaim (s : TransitStore) (max now : Int) : TransitStore × Option (Bytes × Int) :=
  match s.delayed.rangeWithScores (some 0) max 1 with
  | [(member,score)] =>
    ({ s with transit := s.transit.insert member now, delayed := s.delayed.erase member },
      some (member,score))
  | _ => (s,none)

/-- `delayedRestoreScriptSource` with `ARGV = [body, score]`. -/
def delayedRestore (s : TransitStore) (body : Bytes) (score : Int) : Except String TransitStore :=
  if body = [] then .error "delayed restore: invalid argument"
  else .ok { s with delayed := s.delayed.insert body score, transit := s.transit.erase body }

/-- `delayedRecoverScriptSource` with `ARGV[1] = timeout` and `TIME = now`: one batch of stale
transit members goes back to the delayed set with its claim score; the reply is the count. -/
def delayedRecover (s : TransitStore) (timeout now : Int) : Except String (TransitStore × Nat) :=
  if timeout ≤ 0 then .error "delayed recover: invalid argument"
  else
    let stale := s.transit.rangeWithScores none (now - timeout) 128
    if stale.isEmpty then .ok (s,0)
    else
      .ok ({ s with
        delayed := s.delayed.addAll stale, transit := s.transit.eraseAll (stale.map Prod.fst) },
        stale.length)

/-- `finalizeDelayedTransit`: `ZREM transit body`. -/
def finalizeDelayedTransit (s : TransitStore) (body : Bytes) : TransitStore :=
  { s with transit := s.transit.erase body }

/-! ### Producers -/

/-- Where a producer of `produceDelayedTasks` stands between two of its Redis steps. -/
inductive ProducerPhase
  | idle
  /-- `popDelayedTaskWithContext` returned the body and its ETA -/
  | claimed (body : Bytes) (score : Int)
  /-- the republish succeeded; `finalizeDelayedTransit` is next -/
  | published (body : Bytes)
  /-- decoding or republishing failed; `restoreDelayedTask` is next -/
  | failed (body : Bytes) (score : Int)
  /-- the loop returned after a restore -/
  | stopped
deriving DecidableEq, Repr

/-- The keys, every producer's phase, and the ghost list of scheduled bodies. -/
structure TransitSystem where
  store : TransitStore
  producers : Nat → ProducerPhase
  scheduled : List Bytes

def TransitSystem.empty : TransitSystem :=
  ⟨⟨.empty,.empty,[]⟩,fun _ => .idle,[]⟩

/-- One atomic step: a delayed `Publish` (`ZADD delayed eta body`), a producer's next step,
or a recovery pass of any producer. -/
inductive TransitOp
  | schedule (body : Bytes) (eta : Int)
  /-- `claimDelayedTask` with its `max` and the server time -/
  | claim (producer : Nat) (max now : Int)
  /-- the republish of the claimed body, with whether `Publish` succeeded -/
  | publish (producer : Nat) (ok : Bool)
  | finalize (producer : Nat)
  | restore (producer : Nat)
  | recover (timeout now : Int)

/-- A producer's step: the store after it and the producer's next phase. A producer that is
not at the step's point does nothing. -/
def producerStep (s : TransitStore) (phase : ProducerPhase) : TransitOp → TransitStore × ProducerPhase
  | .claim _ max now =>
    match phase with
    | .idle =>
      match delayedClaim s max now with
      | (s',some (body,score)) => (s',.claimed body score)
      | (s',none) => (s',.idle)
    | phase => (s,phase)
  | .publish _ ok =>
    match phase with
    | .claimed body score =>
      -- an empty body is skipped and left in transit
      if body = [] then (s,.idle)
      else if ok then ({ s with ready := s.ready ++ [body] },.published body)
      else (s,.failed body score)
    | phase => (s,phase)
  | .finalize _ =>
    match phase with
    | .published body => (finalizeDelayedTransit s body,.idle)
    | phase => (s,phase)
  | .restore _ =>
    match phase with
    | .failed body score =>
      match delayedRestore s body score with
      | .ok s' => (s',.stopped)
      | .error _ => (s,.stopped)
    | phase => (s,phase)
  | _ => (s,phase)

/-- The producer a step belongs to. -/
def TransitOp.producer? : TransitOp → Option Nat
  | .claim p _ _ | .publish p _ | .finalize p | .restore p => some p
  | _ => none

def transitStep (σ : TransitSystem) : TransitOp → TransitSystem
  | .schedule body eta =>
    { σ with
      store := { σ.store with delayed := σ.store.delayed.insert body eta },
      scheduled := σ.scheduled ++ [body] }
  | .recover timeout now =>
    match delayedRecover σ.store timeout now with
    | .ok (s',_) => { σ with store := s' }
    | .error _ => σ
  | op =>
    match op.producer? with
    | some p =>
      let (s',phase) := producerStep σ.store (σ.producers p) op
      { σ with store := s', producers := Function.update σ.producers p phase }
    | none => σ

/-! ### At least once -/

/-- A body the store still holds: waiting, in transit, or republished. -/
def TransitStore.Holds (s : TransitStore) (b : Bytes) : Prop :=
  s.delayed.contains b = true ∨ s.transit.contains b = true ∨ b ∈ s.ready

/-- A change of the store that keeps every body it held and every republication. -/
structure TransitStore.Keeps (s s' : TransitStore) : Prop where
  holds : ∀ b, s.Holds b → s'.Holds b
  ready : ∀ b ∈ s.ready, b ∈ s'.ready

theorem TransitStore.Keeps.refl (s : TransitStore) : s.Keeps s := ⟨fun _ h => h,fun _ h => h⟩

theorem keeps_of_ready {s : TransitStore} {body : Bytes} :
    s.Keeps { s with ready := s.ready ++ [body] } := by
  refine ⟨fun b hb => ?_,fun b hb => List.mem_append_left _ hb⟩
  rcases hb with hd | ht | hr
  · exact .inl hd
  · exact .inr (.inl ht)
  · exact .inr (.inr (List.mem_append_left _ hr))

section Store

variable {s : TransitStore}

theorem keeps_of_contains {s' : TransitStore} (hready : s'.ready = s.ready)
    (hmoved : ∀ b, s.delayed.contains b = true ∨ s.transit.contains b = true →
      s'.delayed.contains b = true ∨ s'.transit.contains b = true) : s.Keeps s' := by
  refine ⟨fun b hb => ?_,fun b hb => hready ▸ hb⟩
  rcases hb with hd | ht | hr
  · exact (hmoved b (.inl hd)).elim .inl (fun h => .inr (.inl h))
  · exact (hmoved b (.inr ht)).elim .inl (fun h => .inr (.inl h))
  · exact .inr (.inr (hready ▸ hr))

/-- The claim script adds the claimed member to the transit set before it leaves the
delayed set. -/
theorem delayedClaim_keeps (max now : Int) : s.Keeps (delayedClaim s max now).1 := by
  unfold delayedClaim
  split
  · rename_i member score _
    refine keeps_of_contains rfl ?_
    intro b hb
    by_cases hbm : b = member
    · exact .inr (by simp [hbm])
    · simpa [hbm] using hb
  · exact .refl s

theorem delayedRestore_keeps {body : Bytes} {score : Int} {s' : TransitStore}
    (h : delayedRestore s body score = .ok s') : s.Keeps s' := by
  unfold delayedRestore at h
  split at h
  · cases h
  · cases h
    refine keeps_of_contains rfl ?_
    intro b hb
    by_cases hbm : b = body
    · exact .inl (by simp [hbm])
    · simpa [hbm] using hb

theorem delayedRecover_keeps {timeout now : Int} {s' : TransitStore} {n : Nat}
    (h : delayedRecover s timeout now = .ok (s',n)) : s.Keeps s' := by
  unfold delayedRecover at h
  split at h
  · cases h
  · dsimp only at h
    split at h
    · cases h
      exact .refl s
    · cases h
      refine keeps_of_contains rfl ?_
      intro b hb
      simp only [ZSet.contains_addAll, Assoc.contains_eraseAll, Bool.or_eq_true, Bool.and_eq_true,
        decide_eq_true_eq]
      by_cases hbm : b ∈ (s.transit.rangeWithScores none (now - timeout) 128).map Prod.fst
      · exact .inl (.inl hbm)
      · rcases hb with hd | ht
        · exact .inl (.inr hd)
        · exact .inr ⟨hbm,ht⟩

theorem finalize_keeps {body : Bytes} (hb : body ∈ s.ready) :
    s.Keeps (finalizeDelayedTransit s body) := by
  refine ⟨fun b hh => ?_,fun _ h => h⟩
  by_cases hbm : b = body
  · subst hbm
    exact .inr (.inr hb)
  · rcases hh with hd | ht | hr
    · exact .inl hd
    · exact .inr (.inl (by simp [finalizeDelayedTransit, hbm, ht]))
    · exact .inr (.inr hr)

end Store

/-- The invariant of every run: each scheduled body is held, and a producer about to finalize
has republished its body. -/
structure TransitSystem.Invariant (σ : TransitSystem) : Prop where
  kept : ∀ b ∈ σ.scheduled, σ.store.Holds b
  published : ∀ p b, σ.producers p = .published b → b ∈ σ.store.ready

theorem TransitSystem.Invariant.empty : TransitSystem.empty.Invariant where
  kept _ h := absurd h (List.not_mem_nil)
  published _ _ h := absurd h (by simp [TransitSystem.empty])

/-- A producer's step keeps what the store holds and leaves it at a phase the invariant
allows, given that it allowed the phase the producer was at. -/
theorem producerStep_keeps {s : TransitStore} {phase : ProducerPhase}
    (hphase : ∀ b, phase = .published b → b ∈ s.ready) (op : TransitOp) :
    s.Keeps (producerStep s phase op).1 ∧
      ∀ b, (producerStep s phase op).2 = .published b → b ∈ (producerStep s phase op).1.ready := by
  cases op with
  | claim _ max now =>
    cases phase with
    | idle =>
      simp only [producerStep]
      split
      · rename_i s' body score hc
        have hk := delayedClaim_keeps (s := s) max now
        rw [hc] at hk
        exact ⟨hk,fun _ h => by cases h⟩
      · rename_i s' hc
        have hk := delayedClaim_keeps (s := s) max now
        rw [hc] at hk
        exact ⟨hk,fun _ h => by cases h⟩
    | _ => exact ⟨.refl s,hphase⟩
  | publish _ ok =>
    cases phase with
    | claimed body score =>
      simp only [producerStep]
      split
      · exact ⟨.refl s,fun _ h => by cases h⟩
      · split
        · -- the republication lands before the producer may finalize
          refine ⟨keeps_of_ready,fun b h => ?_⟩
          cases h
          exact List.mem_append_right _ List.mem_cons_self
        · exact ⟨.refl s,fun _ h => by cases h⟩
    | _ => exact ⟨.refl s,hphase⟩
  | finalize _ =>
    cases phase with
    | published body =>
      exact ⟨finalize_keeps (hphase body rfl),fun _ h => by cases h⟩
    | _ => exact ⟨.refl s,hphase⟩
  | restore _ =>
    cases phase with
    | failed body score =>
      simp only [producerStep]
      split
      · rename_i s' hr
        exact ⟨delayedRestore_keeps hr,fun _ h => by cases h⟩
      · exact ⟨.refl s,fun _ h => by cases h⟩
    | _ => exact ⟨.refl s,hphase⟩
  | schedule _ _ => exact ⟨.refl s,hphase⟩
  | recover _ _ => exact ⟨.refl s,hphase⟩

/-- A producer's step keeps the invariant: the other producers' phases stay as they were,
over a store that kept everything. -/
theorem producer_invariant {σ : TransitSystem} (hI : σ.Invariant) (p : Nat) (op : TransitOp) :
    ({ σ with
      store := (producerStep σ.store (σ.producers p) op).1,
      producers := Function.update σ.producers p (producerStep σ.store (σ.producers p) op).2 } :
        TransitSystem).Invariant := by
  obtain ⟨hk,hph⟩ := producerStep_keeps (fun b h => hI.published p b h) op
  refine ⟨fun b hb => hk.holds b (hI.kept b hb),fun q b hq => ?_⟩
  change Function.update σ.producers p (producerStep σ.store (σ.producers p) op).2 q = _ at hq
  change b ∈ (producerStep σ.store (σ.producers p) op).1.ready
  by_cases hqp : q = p
  · subst hqp
    rw [Function.update_self] at hq
    exact hph b hq
  · rw [Function.update_of_ne hqp] at hq
    exact hk.ready b (hI.published q b hq)

theorem transitStep_invariant {σ : TransitSystem} (hI : σ.Invariant) (op : TransitOp) :
    (transitStep σ op).Invariant := by
  cases op with
  | schedule body eta =>
    have hk : σ.store.Keeps { σ.store with delayed := σ.store.delayed.insert body eta } :=
      keeps_of_contains rfl (fun b hb => hb.imp_left (fun hd => by simp [hd]))
    refine ⟨fun b hb => ?_,hI.published⟩
    rcases List.mem_append.mp hb with hb | hb
    · exact hk.holds b (hI.kept b hb)
    · rw [List.mem_singleton] at hb
      subst hb
      exact .inl (by simp [transitStep])
  | recover timeout now =>
    simp only [transitStep]
    split
    · rename_i s' n hr
      have hk := delayedRecover_keeps hr
      exact ⟨fun b hb => hk.holds b (hI.kept b hb),fun p b hp => hk.ready b (hI.published p b hp)⟩
    · exact hI
  | claim p _ _ | publish p _ | finalize p | restore p =>
    simp only [transitStep, TransitOp.producer?]
    exact producer_invariant hI p _

/-- Delivery is at least once: along every interleaving of schedules, producer steps and
recovery passes, a body that ever entered the delayed set is, at every moment, in the delayed
set, in the transit set, or already republished to the ready list. -/
theorem delayed_transit_at_least_once (ops : List TransitOp) (b : Bytes)
    (hb : b ∈ (Runs.run transitStep TransitSystem.empty ops).scheduled) :
    (Runs.run transitStep TransitSystem.empty ops).store.delayed.contains b = true ∨
      (Runs.run transitStep TransitSystem.empty ops).store.transit.contains b = true ∨
      b ∈ (Runs.run transitStep TransitSystem.empty ops).store.ready :=
  (Runs.run_invariant (P := TransitSystem.Invariant) (fun _ op hI => transitStep_invariant hI op) ops
    TransitSystem.Invariant.empty).kept b hb

/-- Two producers share two due bodies: the first publishes its body and finalizes, the
second fails to publish and restores its body, and a recovery runs after both. -/
def twoProducerRun : List TransitOp :=
  [.schedule [1] 5,.schedule [2] 6,.claim 0 10 7,.claim 1 10 7,.publish 0 true,.publish 1 false,
    .finalize 0,.restore 1,.recover 30 100]

theorem delayed_transit_at_least_once_twoProducers :
    ([1] ∈ (Runs.run transitStep TransitSystem.empty twoProducerRun).scheduled ∧
      ((Runs.run transitStep TransitSystem.empty twoProducerRun).store.delayed.contains [1] = true ∨
        (Runs.run transitStep TransitSystem.empty twoProducerRun).store.transit.contains [1] = true ∨
        [1] ∈ (Runs.run transitStep TransitSystem.empty twoProducerRun).store.ready)) ∧
    ([2] ∈ (Runs.run transitStep TransitSystem.empty twoProducerRun).scheduled ∧
      ((Runs.run transitStep TransitSystem.empty twoProducerRun).store.delayed.contains [2] = true ∨
        (Runs.run transitStep TransitSystem.empty twoProducerRun).store.transit.contains [2] = true ∨
        [2] ∈ (Runs.run transitStep TransitSystem.empty twoProducerRun).store.ready)) :=
  ⟨⟨by decide,delayed_transit_at_least_once twoProducerRun [1] (by decide)⟩,
    ⟨by decide,delayed_transit_at_least_once twoProducerRun [2] (by decide)⟩⟩

example : [1] ∈ (Runs.run transitStep TransitSystem.empty twoProducerRun).store.ready ∧
    (Runs.run transitStep TransitSystem.empty twoProducerRun).store.delayed.contains [2] = true := by
  decide

end Gkit.Queue
