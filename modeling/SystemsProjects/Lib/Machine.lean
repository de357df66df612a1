import SystemsProjects.Lib.Fuel

/-!
# Deterministic machines

A machine steps while it is running and may stop with a fault. Its runs are
compared with fuelled computations.

- `Machine.run n s`: at most `n` steps from `s`. A fault is reported with the state
  it occurred in.
- `Machine.Reaches k s s'`: `k` steps lead from `s` to `s'`.
- `Machine.FirstAt p s t s'`: a run up to the first state of `p`, with the state in which its
  last step is made; an invariant holds there (`FirstAt.invariant`).
- `Machine.Realises n s r post`: the machine started in `s` does what the
  computation `r` does. It arrives where `post` holds if `r` returns, it arrives at
  the fault if `r` stops, and it makes `n` more steps if `r` ran out of fuel.
  Realisation composes along sequencing (`Realises.bind`), so a compiler is proved
  correct one construct at a time, for all three endings at once.
- `Machine.halts_realised` and `Machine.faults_realised`: a machine that realises a
  computation for every amount of fuel ends only the way the computation does.

Two kinds of statement are used: `Reaches` for a stretch of known length, which composes like a
path, and `Realises` for a stretch that follows a computation of the source. Invariants are
lifted from one step to runs by `invariant`-lemmas, so that no proof about a machine does an
induction over its steps.
-/

namespace SystemsProjects

universe u v w x

/-- A machine with states `σ` and faults `ε`. -/
structure Machine (σ : Type u) (ε : Type v) where
  running : σ → Bool
  step : σ → Except ε σ

namespace Machine

variable {σ : Type u} {ε : Type v} (m : Machine σ ε)

/-- At most `n` steps. -/
def run : Nat → σ → Fueled (ε × σ) σ
  | n, s =>
    if m.running s then
      match n with
      | 0 => .out
      | n + 1 =>
        match m.step s with
        | .ok s' => run n s'
        | .error e => .stop (e, s)
    else .done s

/-- The machine, started in `s`, comes to rest in `s'`. -/
def HaltsIn (s s' : σ) : Prop := Yields (fun n => m.run n s) s'

/-- The machine, started in `s`, runs into the fault `e` in the state `s'`. -/
def FaultsIn (s : σ) (e : ε) (s' : σ) : Prop := ∃ n, m.run n s = .stop (e, s')

/-- `k` steps lead from one state to the other. -/
inductive Reaches : Nat → σ → σ → Prop where
  | refl (s : σ) : Reaches 0 s s
  | step {k : Nat} {s s₁ s₂ : σ} (hrun : m.running s = true) (hstep : m.step s = .ok s₁)
    (hrest : Reaches k s₁ s₂) : Reaches (k + 1) s s₂

variable {m}

/-! ## Runs -/

/-- A machine that has stopped stays as it is. -/
theorem run_stopped {s : σ} (h : m.running s = false) (n : Nat) : m.run n s = .done s := by
  unfold run
  rw [h]
  rfl

theorem run_succ {s s' : σ} (hrun : m.running s = true) (hstep : m.step s = .ok s')
    (n : Nat) : m.run (n + 1) s = m.run n s' := by
  rw [run, if_pos hrun, hstep]

/-- A run ends at a fault, with the state it happened in. -/
theorem run_fault {s : σ} {e : ε} (hrun : m.running s = true) (hstep : m.step s = .error e)
    (n : Nat) : m.run (n + 1) s = .stop (e, s) := by
  rw [run, if_pos hrun, hstep]

theorem run_mono (s : σ) : FuelMono fun n => m.run n s := by
  intro n
  induction n generalizing s with
  | zero =>
    show Fueled.Approx (m.run 0 s) (m.run 1 s)
    by_cases hrun : m.running s = true
    · left
      rw [run, if_pos hrun]
    · rw [Bool.not_eq_true] at hrun
      rw [run_stopped hrun, run_stopped hrun]
      exact .refl _
  | succ n ih =>
    show Fueled.Approx (m.run (n + 1) s) (m.run (n + 1 + 1) s)
    by_cases hrun : m.running s = true
    · cases hstep : m.step s with
      | ok s' =>
        rw [run_succ hrun hstep, run_succ hrun hstep]
        exact ih s'
      | error e =>
        rw [run_fault hrun hstep, run_fault hrun hstep]
        exact .refl _
    · rw [Bool.not_eq_true] at hrun
      rw [run_stopped hrun, run_stopped hrun]
      exact .refl _

/-- Steps that are already made need not be repeated. -/
theorem Reaches.run_add {k : Nat} {s s' : σ} (h : m.Reaches k s s') (n : Nat) :
    m.run (k + n) s = m.run n s' := by
  induction h with
  | refl s => rw [Nat.zero_add]
  | @step k s s₁ s₂ hrun hstep _ ih =>
    have hlen : k + 1 + n = k + n + 1 := by omega
    rw [hlen, run_succ hrun hstep]
    exact ih

/-- A machine that has not yet made all its steps is still running. -/
theorem Reaches.run_lt {k : Nat} {s s' : σ} (h : m.Reaches k s s') {n : Nat} (hn : n < k) :
    m.run n s = .out := by
  induction h generalizing n with
  | refl s => exact absurd hn (Nat.not_lt_zero n)
  | @step k s s₁ s₂ hrun hstep _ ih =>
    cases n with
    | zero => rw [run, if_pos hrun]
    | succ n =>
      rw [run_succ hrun hstep]
      exact ih (Nat.lt_of_succ_lt_succ hn)

/-- Runs one after the other; their steps add up. -/
theorem Reaches.trans {k l : Nat} {s s₁ s₂ : σ} (h : m.Reaches k s s₁)
    (h' : m.Reaches l s₁ s₂) : m.Reaches (k + l) s s₂ := by
  induction h with
  | refl s => rwa [Nat.zero_add]
  | @step k s s₁ s₂ hrun hstep _ ih =>
    have hlen : k + 1 + l = k + l + 1 := by omega
    rw [hlen]
    exact .step hrun hstep (ih h')

theorem Reaches.one {s s' : σ} (hrun : m.running s = true) (hstep : m.step s = .ok s') :
    m.Reaches 1 s s' := .step hrun hstep (.refl _)

/-! ## Invariants -/

/-- What every step keeps holds of every state a run reaches. -/
theorem Reaches.invariant {I : σ → Prop} {k : Nat} {s s' : σ} (h : m.Reaches k s s')
    (hkeep : ∀ s s', I s → m.running s = true → m.step s = .ok s' → I s') (hI : I s) : I s' := by
  induction h with
  | refl s => exact hI
  | step hrun hstep _ ih => exact ih (hkeep _ _ hI hrun hstep)

/-- A fault occurs in a state the run reached. -/
theorem FaultsIn.reaches {s s' : σ} {e : ε} (h : m.FaultsIn s e s') :
    (∃ k, m.Reaches k s s') ∧ m.running s' = true ∧ m.step s' = .error e := by
  obtain ⟨n, hn⟩ := h
  induction n generalizing s with
  | zero =>
    rw [run] at hn
    split at hn
    · cases hn
    · cases hn
  | succ n ih =>
    rw [run] at hn
    split at hn
    · rename_i hrun
      cases hstep : m.step s with
      | ok s₁ =>
        simp only [hstep] at hn
        obtain ⟨⟨k, hreach⟩, hlast⟩ := ih hn
        exact ⟨⟨k + 1, .step hrun hstep hreach⟩, hlast⟩
      | error e' =>
        simp only [hstep] at hn
        obtain ⟨rfl, rfl⟩ := Prod.mk.inj (Fueled.stop.inj hn)
        exact ⟨⟨0, .refl s⟩, hrun, hstep⟩
    · cases hn

/-! ## The first state of a kind -/

/-- A run from `s` up to the first state of `p`, which is `s'`; the last step is made in `t`. -/
inductive FirstAt (m : Machine σ ε) (p : σ → Prop) : σ → σ → σ → Prop where
  | last {s s' : σ} (hs : ¬ p s) (hrun : m.running s = true) (hstep : m.step s = .ok s')
    (hp : p s') : FirstAt m p s s s'
  | step {s s₁ t s' : σ} (hs : ¬ p s) (hrun : m.running s = true) (hstep : m.step s = .ok s₁)
    (hrest : FirstAt m p s₁ t s') : FirstAt m p s t s'

/-- The property does not hold where the search for it starts. -/
theorem FirstAt.not_start {p : σ → Prop} {s t s' : σ} (h : m.FirstAt p s t s') : ¬ p s := by
  cases h with
  | last hs _ _ _ => exact hs
  | step hs _ _ _ => exact hs

/-- What every step keeps that does not end the run, holds where the last step is made. -/
theorem FirstAt.invariant {p I : σ → Prop} {s t s' : σ} (h : m.FirstAt p s t s') (hI : I s)
    (hkeep : ∀ s s₁, I s → ¬ p s → m.step s = .ok s₁ → ¬ p s₁ → I s₁) :
    I t ∧ ¬ p t ∧ m.step t = .ok s' ∧ p s' := by
  induction h with
  | last hs _ hstep hp => exact ⟨hI, hs, hstep, hp⟩
  | step hs _ hstep hrest ih => exact ih (hkeep _ _ hI hs hstep hrest.not_start)

/-! ## Realising a computation -/

variable {ι : Type w} {α : Type x} {β : Type x} {stopped : ι → ε → σ → Prop}

/-- The machine in state `s` does what `r` does: it reaches a state of `post`, or the
fault that `stopped` pairs with the computation's, or it makes `n` steps. -/
def Realises (m : Machine σ ε) (stopped : ι → ε → σ → Prop) (n : Nat) (s : σ)
    (r : Fueled ι α) (post : α → σ → Prop) : Prop :=
  match r with
  | .done a => ∃ k s', m.Reaches k s s' ∧ post a s'
  | .stop i => ∃ k s' e, m.Reaches k s s' ∧ m.running s' = true ∧ m.step s' = .error e ∧
      stopped i e s'
  | .out => ∃ k s', n ≤ k ∧ m.Reaches k s s'

theorem Realises.done {n : Nat} {s : σ} {a : α} {post : α → σ → Prop} (h : post a s) :
    m.Realises stopped n s (.done a) post := ⟨0, s, .refl s, h⟩

theorem Realises.out {s : σ} {post : α → σ → Prop} :
    m.Realises stopped 0 s .out post := ⟨0, s, Nat.le_refl 0, .refl s⟩

theorem Realises.stop {n : Nat} {s : σ} {i : ι} {e : ε} {post : α → σ → Prop}
    (hrun : m.running s = true) (hstep : m.step s = .error e) (h : stopped i e s) :
    m.Realises stopped n s (.stop i) post := ⟨0, s, e, .refl s, hrun, hstep, h⟩

/-- Steps in front of a realisation; they count against its fuel. -/
theorem Realises.after {k l n : Nat} {s s' : σ} {r : Fueled ι α} {post : α → σ → Prop}
    (h : m.Reaches k s s') (hr : m.Realises stopped n s' r post) (hl : l ≤ k + n) :
    m.Realises stopped l s r post := by
  cases r with
  | done a =>
    obtain ⟨j, s'', hreach, hpost⟩ := hr
    exact ⟨k + j, s'', h.trans hreach, hpost⟩
  | stop i =>
    obtain ⟨j, s'', e, hreach, hfault⟩ := hr
    exact ⟨k + j, s'', e, h.trans hreach, hfault⟩
  | out =>
    obtain ⟨j, s'', hn, hreach⟩ := hr
    exact ⟨k + j, s'', by omega, h.trans hreach⟩

/-- What is known of the final state may be weakened. -/
theorem Realises.imp {n : Nat} {s : σ} {r : Fueled ι α} {post post' : α → σ → Prop}
    (hr : m.Realises stopped n s r post) (h : ∀ a s', post a s' → post' a s') :
    m.Realises stopped n s r post' := by
  cases r with
  | done a =>
    obtain ⟨j, s', hreach, hpost⟩ := hr
    exact ⟨j, s', hreach, h a s' hpost⟩
  | stop i => exact hr
  | out => exact hr

/-- Steps behind a realisation. -/
theorem Realises.extend {n : Nat} {s : σ} {r : Fueled ι α} {post post' : α → σ → Prop}
    (hr : m.Realises stopped n s r post)
    (h : ∀ a s', post a s' → ∃ k s'', m.Reaches k s' s'' ∧ post' a s'') :
    m.Realises stopped n s r post' := by
  cases r with
  | done a =>
    obtain ⟨j, s', hreach, hpost⟩ := hr
    obtain ⟨k, s'', hreach', hpost'⟩ := h a s' hpost
    exact ⟨j + k, s'', hreach.trans hreach', hpost'⟩
  | stop i => exact hr
  | out => exact hr

/-- Realisation composes along sequencing. -/
theorem Realises.bind {n : Nat} {s : σ} {r : Fueled ι α} {k : α → Fueled ι β}
    {post : α → σ → Prop} {post' : β → σ → Prop}
    (hr : m.Realises stopped n s r post)
    (hk : ∀ a s', post a s' → m.Realises stopped n s' (k a) post') :
    m.Realises stopped n s (r >>= k) post' := by
  cases r with
  | done a =>
    obtain ⟨j, s', hreach, hpost⟩ := hr
    exact .after hreach (hk a s' hpost) (Nat.le_add_left n j)
  | stop i => exact hr
  | out => exact hr

/-! ## Whole runs -/

section Runs

variable {s : σ} {f : Nat → Fueled ι α} {post : α → σ → Prop}

/-- A state at rest that some run of `s` reaches is where `s` comes to rest. -/
theorem Reaches.haltsIn {k : Nat} {s s' : σ} (h : m.Reaches k s s')
    (hrest : m.running s' = false) : m.HaltsIn s s' := by
  refine ⟨k + 0, ?_⟩
  show m.run (k + 0) s = .done s'
  rw [h.run_add, run_stopped hrest]

/-- A fault further on is a fault of the whole run. -/
theorem Reaches.faultsIn {k : Nat} {s s' : σ} {e : ε} (h : m.Reaches k s s')
    (hrun : m.running s' = true) (hstep : m.step s' = .error e) : m.FaultsIn s e s' :=
  ⟨k + 1, by rw [h.run_add, run_fault hrun hstep]⟩

/-- Two runs of one state that both end, end alike. -/
theorem run_unique {n n' : Nat} {r r' : Fueled (ε × σ) σ} (h : m.run n s = r)
    (h' : m.run n' s = r') (hr : r ≠ .out) (hr' : r' ≠ .out) : r = r' := by
  subst h h'
  have hle := (run_mono (m := m) s).of_le (Nat.le_max_left n n')
  have hle' := (run_mono (m := m) s).of_le (Nat.le_max_right n n')
  have hmax := hle.resolve_left hr
  have hmax' := hle'.resolve_left hr'
  exact hmax.trans hmax'.symm

/-- With every amount of fuel the machine realises the computation, and where the
computation returns the machine is at rest. Then a halted machine comes from a
computation that returned. -/
theorem halts_realised (h : ∀ n, m.Realises stopped n s (f n) post)
    (hpost : ∀ a s', post a s' → m.running s' = false) {s' : σ} (hhalt : m.HaltsIn s s') :
    ∃ a, Yields f a ∧ post a s' := by
  obtain ⟨n, hn⟩ := hhalt
  dsimp only at hn
  have hreal := h (n + 1)
  cases hf : f (n + 1) with
  | done a =>
    rw [hf] at hreal
    obtain ⟨k, s'', hreach, hp⟩ := hreal
    obtain ⟨l, hl⟩ := hreach.haltsIn (hpost a s'' hp)
    obtain rfl : s'' = s' := by
      have heq := run_unique hl hn (by simp) (by simp)
      exact Fueled.done.inj heq
    exact ⟨a, ⟨n + 1, hf⟩, hp⟩
  | stop i =>
    rw [hf] at hreal
    obtain ⟨k, s'', e, hreach, hrun, hstep, _⟩ := hreal
    obtain ⟨l, hl⟩ := hreach.faultsIn hrun hstep
    have heq := run_unique hl hn (by simp) (by simp)
    cases heq
  | out =>
    rw [hf] at hreal
    obtain ⟨k, s'', hk, hreach⟩ := hreal
    rw [hreach.run_lt (by omega)] at hn
    cases hn

/-- Likewise a machine at a fault comes from a computation that stopped. -/
theorem faults_realised (h : ∀ n, m.Realises stopped n s (f n) post)
    (hpost : ∀ a s', post a s' → m.running s' = false) {e : ε} {s' : σ}
    (hfault : m.FaultsIn s e s') : ∃ i, (∃ n, f n = .stop i) ∧ stopped i e s' := by
  obtain ⟨n, hn⟩ := hfault
  have hreal := h (n + 1)
  cases hf : f (n + 1) with
  | done a =>
    rw [hf] at hreal
    obtain ⟨k, s'', hreach, hp⟩ := hreal
    obtain ⟨l, hl⟩ := hreach.haltsIn (hpost a s'' hp)
    have heq := run_unique hl hn (by simp) (by simp)
    cases heq
  | stop i =>
    rw [hf] at hreal
    obtain ⟨k, s'', e', hreach, hrun, hstep, hs⟩ := hreal
    obtain ⟨l, hl⟩ := hreach.faultsIn hrun hstep
    have heq := run_unique hl hn (by simp) (by simp)
    cases heq
    exact ⟨i, ⟨n + 1, hf⟩, hs⟩
  | out =>
    rw [hf] at hreal
    obtain ⟨k, s'', hk, hreach⟩ := hreal
    rw [hreach.run_lt (by omega)] at hn
    cases hn

end Runs

end Machine

end SystemsProjects
