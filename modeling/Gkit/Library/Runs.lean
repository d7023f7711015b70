import Mathlib

namespace Runs

variable {σ α : Type}

/-- The state reached by performing the actions in order. -/
def run (step : σ → α → σ) (s : σ) (as : List α) : σ := as.foldl step s

@[simp] theorem run_nil (step : σ → α → σ) (s : σ) : run step s [] = s := rfl

@[simp] theorem run_cons (step : σ → α → σ) (s : σ) (a : α) (as : List α) :
    run step s (a :: as) = run step (step s a) as := rfl

theorem run_append (step : σ → α → σ) (s : σ) (as bs : List α) :
    run step s (as ++ bs) = run step (run step s as) bs := List.foldl_append

/-- A state is reachable when some run from an initial state ends in it. -/
def Reachable (init : σ → Prop) (step : σ → α → σ) (s : σ) : Prop :=
  ∃ s₀ as, init s₀ ∧ run step s₀ as = s

theorem Reachable.init {init : σ → Prop} {step : σ → α → σ} {s : σ} (h : init s) :
    Reachable init step s :=
  ⟨s,[],h,rfl⟩

theorem Reachable.step {init : σ → Prop} {step : σ → α → σ} {s : σ}
    (h : Reachable init step s) (a : α) : Reachable init step (step s a) := by
  obtain ⟨s₀,as,h₀,rfl⟩ := h
  exact ⟨s₀,as ++ [a],h₀,by simp [run_append]⟩

theorem Reachable.run {init : σ → Prop} {step : σ → α → σ} {s : σ}
    (h : Reachable init step s) (as : List α) : Reachable init step (Runs.run step s as) := by
  induction as generalizing s with
  | nil => exact h
  | cons a as ih => exact ih (h.step a)

theorem run_invariant {step : σ → α → σ} {P : σ → Prop}
    (hstep : ∀ s a, P s → P (step s a)) (as : List α) {s : σ} (hs : P s) :
    P (run step s as) := by
  induction as generalizing s with
  | nil => exact hs
  | cons a as ih => exact ih (hstep s a hs)

theorem run_fixed {step : σ → α → σ} {s : σ} {as : List α} (h : ∀ a ∈ as, step s a = s) :
    run step s as = s := by
  induction as with
  | nil => rfl
  | cons a as ih =>
    rw [run_cons, h a List.mem_cons_self]
    exact ih (fun b hb => h b (List.mem_cons_of_mem a hb))

/-- A relation between two machines that every action keeps holds after a run of the same
actions from related states: the simulation rule of a refinement. -/
theorem run_simulates {τ : Type} {step : σ → α → σ} {step' : τ → α → τ} {R : σ → τ → Prop}
    (hstep : ∀ s t a, R s t → R (step s a) (step' t a)) (as : List α) {s : σ} {t : τ}
    (h : R s t) : R (run step s as) (run step' t as) := by
  induction as generalizing s t with
  | nil => exact h
  | cons a as ih => exact ih (hstep s t a h)

theorem Reachable.invariant {init : σ → Prop} {step : σ → α → σ} {P : σ → Prop}
    (hinit : ∀ s, init s → P s) (hstep : ∀ s a, P s → P (step s a)) {s : σ}
    (h : Reachable init step s) : P s := by
  obtain ⟨s₀,as,h₀,rfl⟩ := h
  exact run_invariant hstep as (hinit s₀ h₀)

/-- Every step of the run from `s` satisfies `Q`, read on the state it starts from. -/
def Steps (step : σ → α → σ) (Q : σ → α → Prop) : σ → List α → Prop
  | _, [] => True
  | s, a :: as => Q s a ∧ Steps step Q (step s a) as

@[simp] theorem steps_nil (step : σ → α → σ) (Q : σ → α → Prop) (s : σ) :
    Steps step Q s [] := trivial

@[simp] theorem steps_cons (step : σ → α → σ) (Q : σ → α → Prop) (s : σ) (a : α)
    (as : List α) : Steps step Q s (a :: as) ↔ Q s a ∧ Steps step Q (step s a) as := Iff.rfl

/-- A relation every step establishes, from states satisfying an invariant, holds from
a state to every later one when it is reflexive and transitive. -/
theorem run_relates {step : σ → α → σ} {P : σ → Prop} {R : σ → σ → Prop}
    (hinv : ∀ s a, P s → P (step s a)) (hrefl : ∀ s, R s s)
    (htrans : ∀ s t u, R s t → R t u → R s u) (hstep : ∀ s a, P s → R s (step s a))
    (as : List α) {s : σ} (hs : P s) : R s (run step s as) := by
  induction as generalizing s with
  | nil => exact hrefl s
  | cons a as ih => exact htrans _ _ _ (hstep s a hs) (ih (hinv s a hs))

/-- What an observation reads off each step of the run from `s`, in order. -/
def trace {β : Type} (step : σ → α → σ) (obs : σ → α → List β) : σ → List α → List β
  | _, [] => []
  | s, a :: as => obs s a ++ trace step obs (step s a) as

@[simp] theorem trace_nil {β : Type} (step : σ → α → σ) (obs : σ → α → List β) (s : σ) :
    trace step obs s [] = [] := rfl

@[simp] theorem trace_cons {β : Type} (step : σ → α → σ) (obs : σ → α → List β) (s : σ) (a : α)
    (as : List α) : trace step obs s (a :: as) = obs s a ++ trace step obs (step s a) as := rfl

theorem trace_append {β : Type} (step : σ → α → σ) (obs : σ → α → List β) (s : σ)
    (as bs : List α) :
    trace step obs s (as ++ bs) = trace step obs s as ++ trace step obs (run step s as) bs := by
  induction as generalizing s with
  | nil => rfl
  | cons a as ih => simp [ih]

theorem trace_const {β : Type} (step : σ → α → σ) (f : α → List β) (s : σ) (as : List α) :
    trace step (fun _ a => f a) s as = as.flatMap f := by
  induction as generalizing s with
  | nil => rfl
  | cons a as ih => simp [ih]

theorem steps_invariant {step : σ → α → σ} {Q : σ → α → Prop} {P : σ → Prop}
    (hstep : ∀ s a, P s → Q s a → P (step s a)) {as : List α} {s : σ}
    (hq : Steps step Q s as) (hs : P s) : P (run step s as) := by
  induction as generalizing s with
  | nil => exact hs
  | cons a as ih => exact ih hq.2 (hstep s a hs hq.1)

theorem steps_of_forall {step : σ → α → σ} {Q : σ → α → Prop} (h : ∀ s a, Q s a) (s : σ)
    (as : List α) : Steps step Q s as := by
  induction as generalizing s with
  | nil => trivial
  | cons a as ih => exact ⟨h s a,ih _⟩

open List in
/-- Bag conservation: when every allowed step, from a state satisfying an invariant, keeps
the invariant and turns the contents `c` plus what it takes in into the new contents plus
what it gives out, then over a whole run of allowed steps the invariant holds at the end,
and the final contents and everything given out are the first contents and everything
taken in, as multisets. -/
theorem steps_conserve {β : Type} {step : σ → α → σ} {Q : σ → α → Prop} {P : σ → Prop}
    {c : σ → List β} {ins outs : σ → α → List β}
    (hstep : ∀ s a, P s → Q s a →
      P (step s a) ∧ (c (step s a) ++ outs s a).Perm (c s ++ ins s a))
    {as : List α} {s : σ} (hq : Steps step Q s as) (hs : P s) :
    P (run step s as) ∧
      (c (run step s as) ++ trace step outs s as).Perm (c s ++ trace step ins s as) := by
  induction as generalizing s with
  | nil => simp [hs]
  | cons a as ih =>
    obtain ⟨hP,hbal⟩ := hstep s a hs hq.1
    obtain ⟨hend,hrest⟩ := ih hq.2 hP
    refine ⟨hend,?_⟩
    rw [run_cons, trace_cons, trace_cons]
    calc c (run step (step s a) as) ++ (outs s a ++ trace step outs (step s a) as)
        _ ~ outs s a ++ (c (run step (step s a) as) ++ trace step outs (step s a) as) :=
          List.perm_append_comm_assoc _ _ _
        _ ~ outs s a ++ (c (step s a) ++ trace step ins (step s a) as) := hrest.append_left _
        _ ~ c (step s a) ++ (outs s a ++ trace step ins (step s a) as) :=
          List.perm_append_comm_assoc _ _ _
        _ = (c (step s a) ++ outs s a) ++ trace step ins (step s a) as := (List.append_assoc ..).symm
        _ ~ (c s ++ ins s a) ++ trace step ins (step s a) as := hbal.append_right _
        _ = c s ++ (ins s a ++ trace step ins (step s a) as) := List.append_assoc ..

open List in
theorem trace_append_perm {β : Type} (step : σ → α → σ) (f g : σ → α → List β) (s : σ)
    (as : List α) :
    (trace step (fun s a => f s a ++ g s a) s as).Perm (trace step f s as ++ trace step g s as) := by
  induction as generalizing s with
  | nil => exact List.Perm.refl _
  | cons a as ih =>
    simp only [trace_cons, List.append_assoc]
    refine List.Perm.append_left (f s a) ?_
    calc g s a ++ trace step (fun s a => f s a ++ g s a) (step s a) as
        _ ~ g s a ++ (trace step f (step s a) as ++ trace step g (step s a) as) :=
          (ih (step s a)).append_left _
        _ ~ trace step f (step s a) as ++ (g s a ++ trace step g (step s a) as) :=
          List.perm_append_comm_assoc _ _ _

theorem trace_map {β γ : Type} (step : σ → α → σ) (obs : σ → α → List β) (h : β → γ) (s : σ)
    (as : List α) : trace step (fun s a => (obs s a).map h) s as = (trace step obs s as).map h := by
  induction as generalizing s with
  | nil => rfl
  | cons a as ih => simp [ih]

/-- What every step observes from a state of an invariant satisfies `Q`, so does every entry
of the trace of a run from such a state. -/
theorem forall_mem_trace {β : Type} {step : σ → α → σ} {obs : σ → α → List β} {P : σ → Prop}
    {Q : β → Prop} (hinv : ∀ s a, P s → P (step s a)) (hobs : ∀ s a, P s → ∀ b ∈ obs s a, Q b)
    (as : List α) {s : σ} (hs : P s) : ∀ b ∈ trace step obs s as, Q b := by
  induction as generalizing s with
  | nil => intro b hb; cases hb
  | cons a as ih =>
    intro b hb
    rcases List.mem_append.mp hb with hb | hb
    · exact hobs s a hs b hb
    · exact ih (hinv s a hs) b hb

theorem trace_eq_nil {β : Type} {step : σ → α → σ} {obs : σ → α → List β} {P : σ → Prop}
    (hinv : ∀ s a, P s → P (step s a)) (hobs : ∀ s a, P s → obs s a = []) (as : List α)
    {s : σ} (hs : P s) : trace step obs s as = [] := by
  induction as generalizing s with
  | nil => rfl
  | cons a as ih => rw [trace_cons, hobs s a hs, ih (hinv s a hs), List.nil_append]

/-- The loop `for i := start; i < start + n; i++ { s = body(s, i) }`. -/
def forRange (body : σ → Nat → σ) (start : Nat) : Nat → σ → σ
  | 0, s => s
  | n + 1, s => body (forRange body start n s) (start + n)

@[simp] theorem forRange_zero (body : σ → Nat → σ) (start : Nat) (s : σ) :
    forRange body start 0 s = s := rfl

theorem forRange_succ (body : σ → Nat → σ) (start n : Nat) (s : σ) :
    forRange body start (n + 1) s = body (forRange body start n s) (start + n) := rfl

theorem forRange_induction {body : σ → Nat → σ} {start : Nat} (P : Nat → σ → Prop) {s : σ}
    (h0 : P 0 s) (hstep : ∀ k t, P k t → P (k + 1) (body t (start + k))) (n : Nat) :
    P n (forRange body start n s) := by
  induction n with
  | zero => exact h0
  | succ n ih => exact hstep n _ ih

end Runs
