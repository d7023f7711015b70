import Gkit.Delayed.Heap
import Gkit.Library.FuelLoop
import Mathlib

/-!
The sentinel of `delayed/do.go` and the dispatcher it serves. At each wake-up (its ticker or
`Refresh`) the sentinel reads the clock once and pops due tasks with `popIfReady` until the top
is not due, handing each to the pool; `Close` marks the dispatcher closed, and the sentinel's
close branch drops what is left and returns. The calls hold the dispatcher's lock and the
sentinel is one goroutine, so a run is a sequence of these events. The pool is not modelled:
what the dispatcher hands to it is the trace of the run, each task with the clock reading of the
wake-up that handed it over.
-/

namespace Gkit.Delayed

variable {τ : Type} (execTime : τ → Int)

/-! ### One wake-up -/

/-- One pass of the sentinel's inner loop; the state is the heap and the tasks handed over. -/
def drainStep (now : Int) (s : Delays τ × List τ) :
    FuelLoop.Step (Delays τ × List τ) (Delays τ × List τ) :=
  match popIfReady execTime s.1 now with
  | (d, some top) => .go (d, s.2 ++ [top])
  | (d, none) => .done (d, s.2)

/-- The inner loop of one wake-up, `for { top := d.popIfReady(now); if d.IsInvalid(top)
{ break }; d.pool.AddTaskN(d.closeCtx, top.Do) }`. A pass that goes on pops a task, so one
pass more than the heap holds reaches the `break`. -/
def drainReady (d : Delays τ) (now : Int) : Option (Delays τ × List τ) :=
  FuelLoop.loop (drainStep execTime now) (d.len + 1) (d, [])

variable {execTime}

@[simp] theorem Delays.length_contents (d : Delays τ) : d.contents.length = d.len := by
  simp [Delays.contents, slots]

theorem Delays.Heap.top_le {d : Delays τ} (h : d.Heap execTime) :
    ∀ y ∈ d.contents, execTime (d.get 0) ≤ execTime y := by
  intro y hy
  obtain ⟨k, hk, rfl⟩ := List.mem_map.mp hy
  exact h.ordered.root_le k (List.mem_range.mp hk)

/-- What `popIfReady` does to a heap: nothing, when no task is due, or it pops the top, which
is due and no later than any task. -/
theorem Delays.Heap.popIfReady_cases {d : Delays τ} (h : d.Heap execTime) (now : Int) :
    (popIfReady execTime d now = (d, none) ∧ ∀ y ∈ d.contents, now < execTime y) ∨
    ∃ d', popIfReady execTime d now = (d', some (d.get 0)) ∧ d'.Heap execTime ∧
      (d'.contents ++ [d.get 0]).Perm d.contents ∧ execTime (d.get 0) ≤ now ∧
      ∀ y ∈ d.contents, execTime (d.get 0) ≤ execTime y := by
  rw [popIfReady_eq]
  by_cases hnone : d.len = 0 ∨ now < execTime (d.get 0)
  · refine .inl ⟨if_pos hnone, fun y hy => ?_⟩
    rcases hnone with h0 | hlt
    · simp [Delays.contents, slots, h0] at hy
    · exact Int.lt_of_lt_of_le hlt (h.top_le y hy)
  · obtain ⟨h', hret, hperm⟩ := h.delTop (by omega)
    refine .inr ⟨_, ?_, h', hperm, by omega, h.top_le⟩
    rw [if_neg hnone, ← hret]

variable (execTime) in
/-- What holds after each pass of the wake-up at `now` that started from `d`: the heap is a
heap, the tasks left and those handed over are the tasks of `d`, and the handed-over tasks are
due, in order of time, and no later than any task left. -/
structure DrainInv (d : Delays τ) (now : Int) (s : Delays τ × List τ) : Prop where
  heap : s.1.Heap execTime
  perm : (s.2 ++ s.1.contents).Perm d.contents
  due : ∀ x ∈ s.2, execTime x ≤ now
  sorted : s.2.Pairwise (fun x y => execTime x ≤ execTime y)
  before : ∀ x ∈ s.2, ∀ y ∈ s.1.contents, execTime x ≤ execTime y

variable (execTime) in
/-- The end of a wake-up: no task left is due. -/
def DrainPost (d : Delays τ) (now : Int) (s : Delays τ × List τ) : Prop :=
  DrainInv execTime d now s ∧ ∀ y ∈ s.1.contents, now < execTime y

theorem drainInv_init {d : Delays τ} (h : d.Heap execTime) (now : Int) :
    DrainInv execTime d now (d, []) :=
  ⟨h, by simp, by simp, List.Pairwise.nil, by simp⟩

/-- A pass that pops the top keeps the invariant: the top is due, no earlier than what was
handed over before, and no later than what stays. -/
theorem DrainInv.pop {d d' : Delays τ} {now : Int} {s : Delays τ × List τ}
    (inv : DrainInv execTime d now s) (hh : d'.Heap execTime)
    (hperm : (d'.contents ++ [s.1.get 0]).Perm s.1.contents) (hdue : execTime (s.1.get 0) ≤ now)
    (hmin : ∀ y ∈ s.1.contents, execTime (s.1.get 0) ≤ execTime y) :
    DrainInv execTime d now (d', s.2 ++ [s.1.get 0]) := by
  have htop : s.1.get 0 ∈ s.1.contents := hperm.subset (by simp)
  have hleft : ∀ y ∈ d'.contents, y ∈ s.1.contents := fun y hy => hperm.subset (by simp [hy])
  refine ⟨hh, ?_, ?_, ?_, ?_⟩ <;> dsimp only
  · rw [List.append_assoc]
    exact (List.Perm.append_left s.2 (List.perm_append_comm.trans hperm)).trans inv.perm
  · intro x hx
    rcases List.mem_append.mp hx with hx | hx
    · exact inv.due x hx
    · rw [List.mem_singleton.mp hx]; exact hdue
  · refine List.pairwise_append.mpr ⟨inv.sorted, List.pairwise_singleton _ _, ?_⟩
    intro x hx y hy
    rw [List.mem_singleton.mp hy]
    exact inv.before x hx _ htop
  · intro x hx y hy
    rcases List.mem_append.mp hx with hx | hx
    · exact inv.before x hx y (hleft y hy)
    · rw [List.mem_singleton.mp hx]; exact hmin y (hleft y hy)

/-- Every pass either ends the wake-up with nothing due left, or pops a task and shrinks the
heap. -/
theorem DrainInv.sound {d : Delays τ} {now : Int} (s : Delays τ × List τ)
    (inv : DrainInv execTime d now s) :
    FuelLoop.Sound (drainStep execTime now) (DrainInv execTime d now)
      (DrainPost execTime d now) (fun s => s.1.len) s := by
  unfold FuelLoop.Sound drainStep
  rcases inv.heap.popIfReady_cases now with ⟨hpop, hlate⟩ | ⟨d', hpop, hh, hperm, hdue, hmin⟩
  · rw [hpop]
    exact ⟨inv, hlate⟩
  · rw [hpop]
    refine ⟨inv.pop hh hperm hdue hmin, ?_⟩
    have hlen := hperm.length_eq
    simp only [List.length_append, Delays.length_contents, List.length_singleton] at hlen
    show d'.len < s.1.len
    omega

/-- One wake-up of the sentinel hands over exactly the tasks due at `now`, earliest first, and
leaves a heap of the tasks that are not due. -/
theorem drainReady_due {d : Delays τ} (h : d.Heap execTime) (now : Int) :
    ∃ d' sub, drainReady execTime d now = some (d', sub) ∧ d'.Heap execTime ∧
      (sub ++ d'.contents).Perm d.contents ∧ (∀ x ∈ sub, execTime x ≤ now) ∧
      (∀ y ∈ d'.contents, now < execTime y) ∧
      sub.Pairwise (fun x y => execTime x ≤ execTime y) := by
  obtain ⟨⟨d', sub⟩, hrun, inv, hlate⟩ :=
    FuelLoop.loop_spec (fun s inv => inv.sound s) (d.len + 1) (d, [])
      (drainInv_init h now) (Nat.lt_succ_self _)
  exact ⟨d', sub, hrun, inv.heap, inv.perm, inv.due, hlate, inv.sorted⟩

/-- Three tasks with their times, added to a new dispatcher. -/
def sampleOps : List (DelayedOp Int) := [.addDelayed 7, .addDelayed 3, .addDelayed 5]

theorem drainReady_due_sample :
    ∃ d' sub, drainReady id (Runs.run (delayedStep id) (Delays.empty (fun _ => 0)) sampleOps) 6 =
        some (d', sub) ∧ d'.Heap id ∧
      (sub ++ d'.contents).Perm (Runs.run (delayedStep id) (Delays.empty (fun _ => 0)) sampleOps).contents ∧
      (∀ x ∈ sub, id x ≤ 6) ∧ (∀ y ∈ d'.contents, 6 < id y) ∧
      sub.Pairwise (fun x y => id x ≤ id y) :=
  drainReady_due (Delays.Heap.run id (fun _ => 0) sampleOps).1 6

example : (drainReady id (Runs.run (delayedStep id) (Delays.empty (fun _ => 0)) sampleOps) 6).map
    (·.2) = some [3, 5] := by decide +kernel

/-! ### The dispatcher -/

/-- What happens to a dispatcher, one at a time: a call of `AddDelayed`, a wake-up of the
sentinel (its ticker or `Refresh`) with the clock reading it takes, a call of `Close`, and the
sentinel taking its close branch, which it can only do after `Close` closed `d.close`. -/
inductive Event (τ : Type)
  | addDelayed (delayed : τ)
  | wake (now : Int)
  | close
  | stop

/-- A dispatcher: its heap, `isClose`, and whether its sentinel has returned. -/
structure Dispatcher (τ : Type) where
  delays : Delays τ
  isClose : Bool
  sentinelDone : Bool

/-- `NewDispatchingDelayed`: an empty heap, open, with its sentinel running. -/
def NewDispatchingDelayed (g : Nat → τ) : Dispatcher τ := ⟨Delays.empty g, false, false⟩

variable (execTime)

/-- The drain of one wake-up; its loop always reaches the `break` (`drainReady_due`), so the
default is never taken. -/
def wakeUp (d : Delays τ) (now : Int) : Delays τ × List τ :=
  (drainReady execTime d now).getD (d, [])

/-- One event. `AddDelayed` returns on a closed dispatcher; a repeated `Close` only returns
`ErrorRepeatShutdown`; the close branch sets `d.delays = nil` and the sentinel returns. -/
def Dispatcher.step (s : Dispatcher τ) : Event τ → Dispatcher τ
  | .addDelayed x => if s.isClose then s else { s with delays := AddDelayed execTime s.delays x }
  | .wake now =>
    if s.sentinelDone then s else { s with delays := (wakeUp execTime s.delays now).1 }
  | .close => { s with isClose := true }
  | .stop =>
    if s.isClose ∧ !s.sentinelDone then
      { s with delays := { s.delays with len := 0 }, sentinelDone := true }
    else s

/-- The tasks an event hands to the pool, each with the clock reading of its wake-up. -/
def handedOver (s : Dispatcher τ) : Event τ → List (τ × Int)
  | .wake now =>
    if s.sentinelDone then [] else (wakeUp execTime s.delays now).2.map fun x => (x, now)
  | _ => []

/-- The task an event puts into the heap. -/
def accepted (s : Dispatcher τ) : Event τ → List τ
  | .addDelayed x => if s.isClose then [] else taken execTime (.addDelayed x)
  | _ => []

/-- The tasks the close branch drops. -/
def dropped (s : Dispatcher τ) : Event τ → List τ
  | .stop => if s.isClose ∧ !s.sentinelDone then s.delays.contents else []
  | _ => []

variable {execTime}

variable (execTime) in
/-- The invariant of a dispatcher: a heap, emptied for good once the sentinel has returned. -/
structure Dispatcher.Inv (s : Dispatcher τ) : Prop where
  heap : s.delays.Heap execTime
  done_closed : s.sentinelDone = true → s.isClose = true
  done_empty : s.sentinelDone = true → s.delays.len = 0

theorem newDispatchingDelayed_inv (g : Nat → τ) :
    (NewDispatchingDelayed g).Inv execTime :=
  ⟨Delays.empty_heap, nofun, nofun⟩

theorem wakeUp_due {d : Delays τ} (h : d.Heap execTime) (now : Int) :
    (wakeUp execTime d now).1.Heap execTime ∧
      ((wakeUp execTime d now).2 ++ (wakeUp execTime d now).1.contents).Perm d.contents ∧
      ∀ x ∈ (wakeUp execTime d now).2, execTime x ≤ now := by
  obtain ⟨d', sub, hrun, hh, hperm, hdue, -⟩ := drainReady_due h now
  rw [wakeUp, hrun, Option.getD_some]
  exact ⟨hh, hperm, hdue⟩

theorem Delays.heap_of_len_zero {d : Delays τ} (h0 : d.len = 0) : d.Heap execTime :=
  ⟨fun k _ hk => absurd hk (by omega), fun x hx => by simp [Delays.contents, slots, h0] at hx⟩

/-- One event keeps the invariant, and the heap after it with what it handed over and dropped
is the heap before it with what it accepted. -/
theorem Dispatcher.Inv.step {s : Dispatcher τ} (inv : s.Inv execTime)
    (e : Event τ) :
    (s.step execTime e).Inv execTime ∧
      ((s.step execTime e).delays.contents ++
        ((handedOver execTime s e).map Prod.fst ++ dropped s e)).Perm
        (s.delays.contents ++ accepted execTime s e) := by
  cases e with
  | addDelayed x =>
    cases hc : s.isClose
    · -- an open dispatcher has its sentinel running
      have hdone : s.sentinelDone = false := by
        cases hd : s.sentinelDone
        · rfl
        · exact absurd (inv.done_closed hd) (by rw [hc]; decide)
      obtain ⟨h', hperm⟩ := inv.heap.add x
      simp only [Dispatcher.step, handedOver, dropped, accepted, taken, hc, Bool.false_eq_true,
        ↓reduceIte, List.map_nil, List.append_nil]
      exact ⟨⟨h', fun hd => absurd hd (by simp [hdone]), fun hd => absurd hd (by simp [hdone])⟩,
        hperm⟩
    · simp only [Dispatcher.step, handedOver, dropped, accepted, hc, ↓reduceIte, List.map_nil,
        List.append_nil]
      exact ⟨inv, List.Perm.refl _⟩
  | wake now =>
    cases hd : s.sentinelDone
    · obtain ⟨h', hperm, -⟩ := wakeUp_due inv.heap now
      simp only [Dispatcher.step, handedOver, dropped, accepted, hd, Bool.false_eq_true,
        ↓reduceIte, List.map_map, List.append_nil]
      refine ⟨⟨h', fun h => absurd h (by simp), fun h => absurd h (by simp)⟩, ?_⟩
      have hid : (Prod.fst ∘ fun x : τ => (x, now)) = id := rfl
      rw [hid, List.map_id]
      exact List.perm_append_comm.trans hperm
    · simp only [Dispatcher.step, handedOver, dropped, accepted, hd, ↓reduceIte, List.map_nil,
        List.append_nil]
      exact ⟨inv, List.Perm.refl _⟩
  | close =>
    simp only [Dispatcher.step, handedOver, dropped, accepted, List.map_nil, List.append_nil]
    exact ⟨⟨inv.heap, fun _ => rfl, inv.done_empty⟩, List.Perm.refl _⟩
  | stop =>
    simp only [Dispatcher.step, handedOver, dropped, accepted, List.map_nil, List.nil_append,
      List.append_nil]
    by_cases hgo : s.isClose = true ∧ (!s.sentinelDone) = true
    · rw [if_pos hgo, if_pos hgo]
      have hempty : ({ s.delays with len := 0 } : Delays τ).contents = [] := by
        simp [Delays.contents, slots]
      refine ⟨⟨Delays.heap_of_len_zero rfl, fun _ => hgo.1, fun _ => rfl⟩, ?_⟩
      rw [hempty, List.nil_append]
    · rw [if_neg hgo, if_neg hgo, List.append_nil]
      exact ⟨inv, List.Perm.refl _⟩

theorem Dispatcher.Inv.handedOver_due {s : Dispatcher τ} (inv : s.Inv execTime)
    (e : Event τ) : ∀ p ∈ handedOver execTime s e, execTime p.1 ≤ p.2 := by
  cases e with
  | wake now =>
    intro p hp
    simp only [handedOver] at hp
    split_ifs at hp
    · cases hp
    · obtain ⟨x, hx, rfl⟩ := List.mem_map.mp hp
      exact (wakeUp_due inv.heap now).2.2 x hx
  | addDelayed _ | close | stop => intro p hp; cases hp

theorem Dispatcher.step_sentinelDone {s : Dispatcher τ} (hd : s.sentinelDone = true)
    (e : Event τ) :
    (s.step execTime e).sentinelDone = true ∧ handedOver execTime s e = [] := by
  cases e with
  | addDelayed x =>
    refine ⟨?_, rfl⟩
    simp only [Dispatcher.step]
    split_ifs <;> exact hd
  | wake now => simp [Dispatcher.step, handedOver, hd]
  | close => exact ⟨hd, rfl⟩
  | stop => simp [Dispatcher.step, handedOver, hd]

variable (execTime)

/-- Over every run of a dispatcher, with calls and wake-ups in any order: the heap stays a heap;
every task handed to the pool or dropped at close was accepted by `AddDelayed` on the open
dispatcher, and each acceptance leaves the heap once; no task is handed over before its time;
and once the sentinel has returned nothing more is handed over. -/
theorem dispatcher_hands_over_due (g : Nat → τ) (events : List (Event τ)) :
    let new := NewDispatchingDelayed g
    let s := Runs.run (Dispatcher.step execTime) new events
    let out := Runs.trace (Dispatcher.step execTime) (handedOver execTime) new events
    s.delays.Heap execTime ∧
      (s.delays.contents ++
          (out.map Prod.fst ++ Runs.trace (Dispatcher.step execTime) dropped new events)).Perm
        (Runs.trace (Dispatcher.step execTime) (accepted execTime) new events) ∧
      (∀ p ∈ out, execTime p.1 ≤ p.2) ∧
      ∀ pre post, (Runs.run (Dispatcher.step execTime) new pre).sentinelDone = true →
        Runs.trace (Dispatcher.step execTime) (handedOver execTime)
          (Runs.run (Dispatcher.step execTime) new pre) post = [] := by
  intro new s out
  have hinv : ∀ (t : Dispatcher τ) (e : Event τ), t.Inv execTime →
      (t.step execTime e).Inv execTime :=
    fun t e ht => (ht.step e).1
  obtain ⟨hend, hperm⟩ := @Runs.steps_conserve _ _ _ (Dispatcher.step execTime) (fun _ _ => True)
    (fun t => t.Inv execTime) (fun t => t.delays.contents) (accepted execTime)
    (fun t e => (handedOver execTime t e).map Prod.fst ++ dropped t e)
    (fun t e ht _ => ht.step e) events new (Runs.steps_of_forall (fun _ _ => trivial) new events)
    (newDispatchingDelayed_inv g)
  have hsplit := Runs.trace_append_perm (Dispatcher.step execTime)
    (fun t e => (handedOver execTime t e).map Prod.fst) dropped new events
  rw [Runs.trace_map] at hsplit
  have hnew : new.delays.contents = [] := by simp [new, NewDispatchingDelayed, Delays.contents,
    Delays.empty, slots]
  rw [hnew, List.nil_append] at hperm
  refine ⟨hend.heap, (hsplit.symm.append_left _).trans hperm,
    Runs.forall_mem_trace hinv (fun (t : Dispatcher τ) e (ht : t.Inv execTime) =>
      ht.handedOver_due e) events
      (newDispatchingDelayed_inv g), ?_⟩
  intro pre post hdone
  exact Runs.trace_eq_nil (P := fun t : Dispatcher τ => t.sentinelDone = true)
    (fun t e ht => (Dispatcher.step_sentinelDone ht e).1)
    (fun t e ht => (Dispatcher.step_sentinelDone ht e).2) post hdone

end Gkit.Delayed
