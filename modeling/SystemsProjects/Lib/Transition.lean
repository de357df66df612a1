/-!
# Transition systems

States, the initial ones among them, and labelled steps.

- `TransitionSystem.Reachable`: the states of runs from an initial state.
- `Reachable.invariant`: what holds initially and is kept by every step from a reachable
  state holds of every reachable state.
- `Reachable.simulated`: a forward simulation. Every reachable state of the one system
  is related to a reachable state of the other; the step condition may use that the
  other state is reachable.
- `TransitionSystem.Steps`: a stretch of a run.
- `TransitionSystem.restrict`: the steps that meet a condition. `Run.forall_iff`: where a
  step keeps a promise exactly when it meets the condition, as long as the steps before it
  did, the runs that keep the promise are those whose steps all meet the condition.
- `TransitionSystem.ofFunction`: the system of a step function, with `runActions` to
  compute runs (`reachable_of_runActions`).

A system is a predicate and a relation, with no requirement that either is decidable, so the
same rules serve the systems with choices left open and those given by a function. Conditions on
runs are conditions on the steps, each on the state before it and on the label.
-/

namespace SystemsProjects

universe u v w

/-- States `σ`, steps labelled by actions `α`. -/
structure TransitionSystem (σ : Type u) (α : Type v) where
  Initial : σ → Prop
  Step : σ → α → σ → Prop

namespace TransitionSystem

variable {σ : Type u} {τ : Type w} {α : Type v}

/-- The state occurs on a run from an initial state. -/
inductive Reachable (T : TransitionSystem σ α) : σ → Prop where
  | init {s : σ} (h : T.Initial s) : Reachable T s
  | step {s s' : σ} {a : α} (h : Reachable T s) (hstep : T.Step s a s') : Reachable T s'

variable {T : TransitionSystem σ α} {U : TransitionSystem τ α}

/-- What holds initially and is kept by every step holds of every reachable state. -/
theorem Reachable.invariant {P : σ → Prop} (hinit : ∀ s, T.Initial s → P s)
    (hkeep : ∀ s a s', T.Reachable s → P s → T.Step s a s' → P s')
    {s : σ} (h : T.Reachable s) : P s := by
  induction h with
  | init h => exact hinit _ h
  | step h hstep ih => exact hkeep _ _ _ h ih hstep

/-- Forward simulation. -/
theorem Reachable.simulated {R : σ → τ → Prop}
    (hinit : ∀ s, T.Initial s → ∃ t, U.Initial t ∧ R s t)
    (hsim : ∀ s a s' t, T.Step s a s' → U.Reachable t → R s t →
      ∃ t', U.Step t a t' ∧ R s' t')
    {s : σ} (h : T.Reachable s) : ∃ t, U.Reachable t ∧ R s t := by
  induction h with
  | init h =>
    obtain ⟨t, ht, hR⟩ := hinit _ h
    exact ⟨t, .init ht, hR⟩
  | step _ hstep ih =>
    obtain ⟨t, ht, hR⟩ := ih
    obtain ⟨t', hstep', hR'⟩ := hsim _ _ _ _ hstep ht hR
    exact ⟨t', .step ht hstep', hR'⟩

/-- A stretch of a run, from one state to another. -/
inductive Steps (T : TransitionSystem σ α) (s : σ) : σ → Prop where
  | refl : Steps T s s
  | step {s' s'' : σ} {a : α} (h : Steps T s s') (hstep : T.Step s' a s'') : Steps T s s''

theorem Steps.trans {s s' s'' : σ} (h : T.Steps s s') (h' : T.Steps s' s'') : T.Steps s s'' := by
  induction h' with
  | refl => exact h
  | step _ hstep ih => exact .step ih hstep

/-- What is reached by further steps is reachable. -/
theorem Reachable.steps {s s' : σ} (h : T.Reachable s) (hsteps : T.Steps s s') :
    T.Reachable s' := by
  induction hsteps with
  | refl => exact h
  | step _ hstep ih => exact .step ih hstep

/-! ## Runs and conditions -/

/-- A step that a run has taken. -/
structure Taken (σ : Type u) (α : Type v) where
  before : σ
  action : α
  after : σ

/-- A run with the steps it has taken, the latest first, to the state it has reached. -/
inductive Run (T : TransitionSystem σ α) : List (Taken σ α) → σ → Prop where
  | init {s : σ} (h : T.Initial s) : Run T [] s
  | step {t : List (Taken σ α)} {s s' : σ} {a : α} (h : Run T t s) (hstep : T.Step s a s') :
      Run T (⟨s, a, s'⟩ :: t) s'

theorem Run.reachable {t : List (Taken σ α)} {s : σ} (h : T.Run t s) : T.Reachable s := by
  induction h with
  | init h => exact .init h
  | step _ hstep ih => exact .step ih hstep

/-- Some run leads to a reachable state. -/
theorem Reachable.exists_run {s : σ} (h : T.Reachable s) : ∃ t, T.Run t s := by
  induction h with
  | init h => exact ⟨[], .init h⟩
  | step _ hstep ih =>
    obtain ⟨t, ht⟩ := ih
    exact ⟨_, .step ht hstep⟩

/-- What a run has taken are steps. -/
theorem Run.step_of_mem {t : List (Taken σ α)} {s : σ} (h : T.Run t s) {x : Taken σ α}
    (hx : x ∈ t) : T.Step x.before x.action x.after := by
  induction h with
  | init h => cases hx
  | step _ hstep ih =>
    rcases List.mem_cons.mp hx with rfl | hx
    · exact hstep
    · exact ih hx

/-- The steps that meet a condition. -/
def restrict (T : TransitionSystem σ α) (P : σ → α → Prop) : TransitionSystem σ α where
  Initial := T.Initial
  Step s a s' := P s a ∧ T.Step s a s'

theorem Reachable.of_restrict {P : σ → α → Prop} {s : σ} (h : (T.restrict P).Reachable s) :
    T.Reachable s := by
  induction h with
  | init h => exact .init h
  | step _ hstep ih => exact .step ih hstep.2

/-- A run whose actions all meet the condition is a run of the restricted system. -/
theorem Run.reachable_restrict {P : σ → α → Prop} {t : List (Taken σ α)} {s : σ}
    (h : T.Run t s) (hP : ∀ x ∈ t, P x.before x.action) : (T.restrict P).Reachable s := by
  induction h with
  | init h => exact .init h
  | step _ hstep ih =>
    refine .step (ih fun x hx => hP x (List.mem_cons_of_mem _ hx)) ⟨?_, hstep⟩
    exact hP _ (List.mem_cons_self ..)

/-- A run of such steps is a run in which all steps meet the condition. -/
theorem Run.of_restrict {P : σ → α → Prop} {t : List (Taken σ α)} {s : σ}
    (h : (T.restrict P).Run t s) : T.Run t s ∧ ∀ x ∈ t, P x.before x.action := by
  induction h with
  | init h => exact ⟨.init h, fun x hx => absurd hx List.not_mem_nil⟩
  | step _ hstep ih => exact ⟨.step ih.1 hstep.2, List.forall_mem_cons.mpr ⟨hstep.1, ih.2⟩⟩

/-- The first step that fails the condition is the first that breaks the promise `Q`. -/
theorem Run.forall_iff {P : σ → α → Prop} {Q : σ → α → σ → Prop}
    (hiff : ∀ s a s', (T.restrict P).Reachable s → T.Step s a s' → (Q s a s' ↔ P s a))
    {t : List (Taken σ α)} {s : σ} (h : T.Run t s) :
    (∀ x ∈ t, Q x.before x.action x.after) ↔ ∀ x ∈ t, P x.before x.action := by
  induction h with
  | init h =>
    exact ⟨fun _ x hx => absurd hx List.not_mem_nil, fun _ x hx => absurd hx List.not_mem_nil⟩
  | step hrun hstep ih =>
    rw [List.forall_mem_cons, List.forall_mem_cons, ih]
    refine and_congr_left fun hP => ?_
    exact hiff _ _ _ (hrun.reachable_restrict hP) hstep

/-! ## Step functions -/

/-- The system of a step function; `none` where an action is not enabled. -/
def ofFunction (Initial : σ → Prop) (step : σ → α → Option σ) : TransitionSystem σ α where
  Initial := Initial
  Step s a s' := step s a = some s'

/-- Do the actions one after the other. -/
def runActions (step : σ → α → Option σ) : List α → σ → Option σ
  | [], s => some s
  | a :: as, s =>
    match step s a with
    | none => none
    | some s' => runActions step as s'

/-- A run of a step function whose steps are steps of the system, under any label. -/
theorem Reachable.runActions {β : Type w} {step : σ → β → Option σ}
    (hstep : ∀ s b s', step s b = some s' → ∃ a, T.Step s a s') {bs : List β} {s s' : σ}
    (h : T.Reachable s) (hrun : runActions step bs s = some s') : T.Reachable s' := by
  induction bs generalizing s with
  | nil =>
    obtain rfl : s = s' := Option.some.inj hrun
    exact h
  | cons b bs ih =>
    unfold TransitionSystem.runActions at hrun
    split at hrun
    · cases hrun
    · next s₁ hs₁ =>
      obtain ⟨a, ha⟩ := hstep _ _ _ hs₁
      exact ih (.step h ha) hrun

/-- The stretch of a run that such steps are. -/
theorem Steps.runActions {β : Type w} {step : σ → β → Option σ}
    (hstep : ∀ s b s', step s b = some s' → ∃ a, T.Step s a s') {bs : List β} {s s' : σ}
    (hrun : runActions step bs s = some s') : T.Steps s s' := by
  induction bs generalizing s with
  | nil =>
    obtain rfl : s = s' := Option.some.inj hrun
    exact .refl
  | cons b bs ih =>
    unfold TransitionSystem.runActions at hrun
    split at hrun
    · cases hrun
    · next s₁ hs₁ =>
      obtain ⟨a, ha⟩ := hstep _ _ _ hs₁
      exact (Steps.refl.step ha).trans (ih hrun)

/-- A list of actions that goes through leads to a reachable state. -/
theorem reachable_of_runActions {Initial : σ → Prop} {step : σ → α → Option σ}
    {as : List α} {s s' : σ} (h : (ofFunction Initial step).Reachable s)
    (hrun : runActions step as s = some s') : (ofFunction Initial step).Reachable s' :=
  h.runActions (fun _ a _ hs => ⟨a, hs⟩) hrun

end TransitionSystem

end SystemsProjects
