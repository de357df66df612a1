import Mathlib.Logic.Basic

/-!
# Fuelled computations

A recursive program whose termination is not evident from its text is modelled
as a family `f : Nat → Fueled ε α`, indexed by the recursion depth it is allowed.
A run ends in one of three ways: it returns (`done`), it stops with a fault of
the program (`stop`), or the depth did not suffice (`out`).

- `Fueled.Approx r r'`: `r'` is `r`, or `r` ran out. Sequencing is monotone for
  this order (`Approx.bind`), so a family built from monotone ones is monotone.
- `Yields f a`: some amount of fuel makes `f` return `a`. For a monotone family
  the answer is unique (`Yields.unique`), holds for every larger amount
  (`Yields.of_le`), and composes along sequencing (`Yields.bind`).
- `Faults f e`: some amount of fuel makes `f` stop with the fault `e`.
- `Ends f`: some amount of fuel suffices, to return or to stop. A sequence ends when its
  first part does, and its second part on whatever the first returns (`Ends.bind`).
- `FuelEq f g`: the two families end in the same ways, whatever fuel each of them needs.
- `Fueled.mapStop`: faults under other names, where computations with different faults follow
  one another.

A theorem about a program in this form has no fuel in it: it says `Yields`, `Faults` or `Ends`.
Fuel appears in the proof that the family is monotone, which is done once for each program,
along its text.
-/

namespace SystemsProjects

universe u v w

/-- The outcome of a computation that was given a bounded amount of fuel. -/
inductive Fueled (ε : Type u) (α : Type v) where
  | done (a : α)
  | stop (e : ε)
  | out
  deriving DecidableEq, Repr

namespace Fueled

variable {ε : Type u} {α : Type v} {β : Type v}

/-- Sequencing: a fault or an exhausted run ends the whole computation. -/
def bind (r : Fueled ε α) (k : α → Fueled ε β) : Fueled ε β :=
  match r with
  | .done a => k a
  | .stop e => .stop e
  | .out => .out

instance : Monad (Fueled ε) where
  pure := .done
  bind := bind

@[simp] theorem pure_eq (a : α) : (pure a : Fueled ε α) = .done a := rfl

@[simp] theorem done_bind (a : α) (k : α → Fueled ε β) :
    ((.done a : Fueled ε α) >>= k) = k a := rfl

@[simp] theorem stop_bind (e : ε) (k : α → Fueled ε β) :
    ((.stop e : Fueled ε α) >>= k) = .stop e := rfl

@[simp] theorem out_bind (k : α → Fueled ε β) :
    ((.out : Fueled ε α) >>= k) = .out := rfl

/-- Sequencing is associative, so a run can be cut anywhere. -/
theorem bind_assoc {γ : Type v} (r : Fueled ε α) (k : α → Fueled ε β) (l : β → Fueled ε γ) :
    ((r >>= k) >>= l) = r >>= fun a => k a >>= l := by
  cases r with
  | done a => rfl
  | stop e => rfl
  | out => rfl

theorem done_ne_out (a : α) : (.done a : Fueled ε α) ≠ .out := by
  intro h
  cases h

theorem stop_ne_out (e : ε) : (.stop e : Fueled ε α) ≠ .out := by
  intro h
  cases h

/-- A sequence returns exactly when both of its parts do. -/
theorem bind_eq_done {r : Fueled ε α} {k : α → Fueled ε β} {b : β} :
    (r >>= k) = .done b ↔ ∃ a, r = .done a ∧ k a = .done b := by
  cases r with
  | done a => simp
  | stop e => simp
  | out => simp

/-! ## Approximation -/

/-- `r'` refines `r`: they agree unless `r` ran out of fuel. -/
def Approx (r r' : Fueled ε α) : Prop := r = .out ∨ r = r'

theorem Approx.refl (r : Fueled ε α) : Approx r r := .inr rfl

theorem Approx.out_left (r : Fueled ε α) : Approx .out r := .inl rfl

theorem Approx.trans {r₁ r₂ r₃ : Fueled ε α} (h₁ : Approx r₁ r₂)
    (h₂ : Approx r₂ r₃) : Approx r₁ r₃ := by
  rcases h₁ with h | rfl
  · exact .inl h
  · exact h₂

/-- Sequencing is monotone in both parts. -/
theorem Approx.bind {r r' : Fueled ε α} {k k' : α → Fueled ε β}
    (h : Approx r r') (hk : ∀ a, Approx (k a) (k' a)) :
    Approx (r >>= k) (r' >>= k') := by
  rcases h with rfl | rfl
  · exact .out_left _
  · cases r with
    | done a => exact hk a
    | stop e => exact .refl _
    | out => exact .refl _

theorem Approx.done {r r' : Fueled ε α} {a : α} (h : Approx r r')
    (hr : r = .done a) : r' = .done a := by
  rcases h with h | rfl
  · rw [h] at hr
    cases hr
  · exact hr

/-! ## Renaming faults -/

variable {ε' : Type w}

/-- The same computation, its faults under other names. -/
def mapStop (f : ε → ε') : Fueled ε α → Fueled ε' α
  | .done a => .done a
  | .stop e => .stop (f e)
  | .out => .out

theorem mapStop_eq_done {f : ε → ε'} {r : Fueled ε α} {a : α} :
    r.mapStop f = .done a ↔ r = .done a := by
  cases r <;> simp [mapStop]

theorem mapStop_eq_stop {f : ε → ε'} {r : Fueled ε α} {e' : ε'} :
    r.mapStop f = .stop e' ↔ ∃ e, r = .stop e ∧ f e = e' := by
  cases r <;> simp [mapStop]

theorem Approx.mapStop {r r' : Fueled ε α} (h : Approx r r') (f : ε → ε') :
    Approx (r.mapStop f) (r'.mapStop f) := by
  rcases h with rfl | rfl
  · exact .out_left _
  · exact .refl _

/-- A computation without fuel. -/
def ofExcept : Except ε α → Fueled ε α
  | .ok a => .done a
  | .error e => .stop e

end Fueled

/-! ## Families indexed by fuel -/

section Families

open Fueled (stop_ne_out)

variable {ε : Type u} {α : Type v} {β : Type v}

/-- One more unit of fuel never changes an answer. -/
def FuelMono (f : Nat → Fueled ε α) : Prop :=
  ∀ n, Fueled.Approx (f n) (f (n + 1))

theorem FuelMono.of_le {f : Nat → Fueled ε α} (hf : FuelMono f) {n m : Nat}
    (h : n ≤ m) : Fueled.Approx (f n) (f m) := by
  induction h with
  | refl => exact .refl _
  | step _ ih => exact ih.trans (hf _)

/-- Some amount of fuel makes the family return `a`. -/
def Yields (f : Nat → Fueled ε α) (a : α) : Prop := ∃ n, f n = .done a

/-- With enough fuel the family keeps returning its answer. -/
theorem Yields.of_le {f : Nat → Fueled ε α} (hf : FuelMono f) {a : α}
    (h : Yields f a) : ∃ n, ∀ m, n ≤ m → f m = .done a := by
  obtain ⟨n, hn⟩ := h
  exact ⟨n, fun m hm => (hf.of_le hm).done hn⟩

/-- A monotone family has at most one answer. -/
theorem Yields.unique {f : Nat → Fueled ε α} (hf : FuelMono f) {a b : α}
    (ha : Yields f a) (hb : Yields f b) : a = b := by
  obtain ⟨n, hn⟩ := ha.of_le hf
  obtain ⟨m, hm⟩ := hb.of_le hf
  have h := (hn (max n m) (Nat.le_max_left n m)).symm.trans
    (hm (max n m) (Nat.le_max_right n m))
  exact Fueled.done.inj h

/-- A monotone family that has an answer never stops with a fault. -/
theorem Yields.not_stop {f : Nat → Fueled ε α} (hf : FuelMono f) {a : α} (h : Yields f a)
    {n : Nat} {e : ε} : f n ≠ .stop e := by
  intro hstop
  obtain ⟨m, hm⟩ := h.of_le hf
  rcases hf.of_le (Nat.le_max_left n m) with hout | heq
  · rw [hstop] at hout
    cases hout
  · rw [hstop, hm _ (Nat.le_max_right n m)] at heq
    cases heq

/-- A family that is defined by `g` one level deeper yields what `g` yields. -/
theorem Yields.succ {f g : Nat → Fueled ε α} (h : ∀ n, f (n + 1) = g n) {a : α}
    (hg : Yields g a) : Yields f a := by
  obtain ⟨n, hn⟩ := hg
  exact ⟨n + 1, by rw [h, hn]⟩

/-- Sequencing two families that share their fuel. -/
theorem Yields.bind {f : Nat → Fueled ε α} {k : α → Nat → Fueled ε β} {a : α}
    {b : β} (hf : FuelMono f) (hk : ∀ a, FuelMono (k a)) (ha : Yields f a)
    (hb : Yields (k a) b) : Yields (fun n => f n >>= fun a => k a n) b := by
  obtain ⟨n, hn⟩ := ha.of_le hf
  obtain ⟨m, hm⟩ := hb.of_le (hk a)
  refine ⟨max n m, ?_⟩
  show (f (max n m) >>= fun a => k a (max n m)) = .done b
  rw [hn _ (Nat.le_max_left n m), Fueled.done_bind]
  exact hm _ (Nat.le_max_right n m)

/-- Some amount of fuel makes the family stop with the fault `e`. -/
def Faults (f : Nat → Fueled ε α) (e : ε) : Prop := ∃ n, f n = .stop e

/-- A monotone family that stops does so in one way. -/
theorem Faults.unique {f : Nat → Fueled ε α} (hf : FuelMono f) {e e' : ε} (h : Faults f e)
    {n : Nat} (hn : f n = .stop e') : e' = e := by
  obtain ⟨m, hm⟩ := h
  have hfirst := (hf.of_le (Nat.le_max_left m n)).resolve_left (by rw [hm]; exact stop_ne_out e)
  have hsecond := (hf.of_le (Nat.le_max_right m n)).resolve_left (by rw [hn]; exact stop_ne_out e')
  rw [hm] at hfirst
  rw [hn, ← hfirst] at hsecond
  exact Fueled.stop.inj hsecond

/-- A family that is defined by `g` one level deeper stops where `g` stops. -/
theorem Faults.succ {f g : Nat → Fueled ε α} (h : ∀ n, f (n + 1) = g n) {e : ε}
    (hg : Faults g e) : Faults f e := by
  obtain ⟨n, hn⟩ := hg
  exact ⟨n + 1, by rw [h, hn]⟩

/-- A fault in the first part of a sequence. -/
theorem Faults.bind {f : Nat → Fueled ε α} {k : α → Nat → Fueled ε β} {e : ε}
    (h : Faults f e) : Faults (fun n => f n >>= fun a => k a n) e := by
  obtain ⟨n, hn⟩ := h
  refine ⟨n, ?_⟩
  show (f n >>= fun a => k a n) = .stop e
  rw [hn, Fueled.stop_bind]

/-- A fault in the second part. -/
theorem Yields.bind_faults {f : Nat → Fueled ε α} {k : α → Nat → Fueled ε β} {a : α} {e : ε}
    (hf : FuelMono f) (hk : ∀ a, FuelMono (k a)) (ha : Yields f a) (h : Faults (k a) e) :
    Faults (fun n => f n >>= fun a => k a n) e := by
  obtain ⟨n, hn⟩ := ha.of_le hf
  obtain ⟨m, hm⟩ := h
  refine ⟨max n m, ?_⟩
  show (f (max n m) >>= fun a => k a (max n m)) = .stop e
  rw [hn _ (Nat.le_max_left n m), Fueled.done_bind, ← hm]
  refine (((hk a).of_le (Nat.le_max_right n m)).resolve_left ?_).symm
  rw [hm]
  exact stop_ne_out e

theorem Yields.const {a : α} : Yields (fun _ => (.done a : Fueled ε α)) a :=
  ⟨0, rfl⟩

theorem FuelMono.const (r : Fueled ε α) : FuelMono fun _ => r := fun _ => .refl r

theorem FuelMono.mapStop {ε' : Type w} {f : Nat → Fueled ε α} (hf : FuelMono f) (g : ε → ε') :
    FuelMono fun n => (f n).mapStop g := fun n => (hf n).mapStop g

/-- A function with its faults renamed yields the same. -/
theorem Yields.mapStop_iff {ε' : Type w} {f : Nat → Fueled ε α} {g : ε → ε'} {a : α} :
    Yields (fun n => (f n).mapStop g) a ↔ Yields f a :=
  exists_congr fun _ => Fueled.mapStop_eq_done

theorem Faults.mapStop_iff {ε' : Type w} {f : Nat → Fueled ε α} {g : ε → ε'} {e' : ε'} :
    Faults (fun n => (f n).mapStop g) e' ↔ ∃ e, Faults f e ∧ g e = e' := by
  constructor
  · rintro ⟨n, hn⟩
    obtain ⟨e, hstop, heq⟩ := Fueled.mapStop_eq_stop.mp hn
    exact ⟨e, ⟨n, hstop⟩, heq⟩
  · rintro ⟨e, ⟨n, hn⟩, heq⟩
    exact ⟨n, Fueled.mapStop_eq_stop.mpr ⟨e, hn, heq⟩⟩

/-- A sequence of monotone families is monotone. -/
theorem FuelMono.bind {f : Nat → Fueled ε α} {k : α → Nat → Fueled ε β} (hf : FuelMono f)
    (hk : ∀ a, FuelMono (k a)) : FuelMono fun n => f n >>= fun a => k a n :=
  fun n => .bind (hf n) fun a => hk a n

/-! ### Families that end -/

/-- Some amount of fuel suffices. -/
def Ends (f : Nat → Fueled ε α) : Prop := ∃ n, f n ≠ .out

theorem Yields.ends {f : Nat → Fueled ε α} {a : α} (h : Yields f a) : Ends f := by
  obtain ⟨n, hn⟩ := h
  refine ⟨n, ?_⟩
  rw [hn]
  exact Fueled.done_ne_out a

theorem Ends.of_stop {f : Nat → Fueled ε α} {n : Nat} {e : ε} (h : f n = .stop e) : Ends f := by
  refine ⟨n, ?_⟩
  rw [h]
  exact Fueled.stop_ne_out e

/-- What ends, ends in the same way with more fuel. -/
theorem Ends.of_le {f : Nat → Fueled ε α} (hf : FuelMono f) (h : Ends f) :
    ∃ n, f n ≠ .out ∧ ∀ m, n ≤ m → f m = f n := by
  obtain ⟨n, hn⟩ := h
  exact ⟨n, hn, fun m hm => ((hf.of_le hm).resolve_left hn).symm⟩

/-- A family that refines one that ends does so too. -/
theorem Ends.of_approx {f g : Nat → Fueled ε α} (h : Ends f)
    (hfg : ∀ n, Fueled.Approx (f n) (g n)) : Ends g := by
  obtain ⟨n, hn⟩ := h
  refine ⟨n, ?_⟩
  rwa [← (hfg n).resolve_left hn]

/-- A family that is defined by `g` one level deeper ends when `g` does. -/
theorem Ends.succ {f g : Nat → Fueled ε α} (h : ∀ n, f (n + 1) = g n) (hg : Ends g) :
    Ends f := by
  obtain ⟨n, hn⟩ := hg
  exact ⟨n + 1, by rwa [h]⟩

/-- Sequencing two families that share their fuel. -/
theorem Ends.bind {f : Nat → Fueled ε α} {k : α → Nat → Fueled ε β} (hf : FuelMono f)
    (hk : ∀ a, FuelMono (k a)) (h : Ends f) (hrest : ∀ a, Yields f a → Ends (k a)) :
    Ends (fun n => f n >>= fun a => k a n) := by
  obtain ⟨n, hn, hstable⟩ := h.of_le hf
  cases hr : f n with
  | out => exact absurd hr hn
  | stop e =>
    refine ⟨n, ?_⟩
    show (f n >>= fun a => k a n) ≠ .out
    rw [hr]
    exact Fueled.stop_ne_out e
  | done a =>
    obtain ⟨m, hm, hlater⟩ := (hrest a ⟨n, hr⟩).of_le (hk a)
    refine ⟨max n m, ?_⟩
    show (f (max n m) >>= fun a => k a (max n m)) ≠ .out
    rw [hstable _ (Nat.le_max_left n m), hr, Fueled.done_bind, hlater _ (Nat.le_max_right n m)]
    exact hm

/-! ### Families with the same answers -/

/-- Every answer of `f` is one of `g`. -/
def FuelLe (f g : Nat → Fueled ε α) : Prop := ∀ n, ∃ m, Fueled.Approx (f n) (g m)

/-- The two families have the same answers. -/
def FuelEq (f g : Nat → Fueled ε α) : Prop := FuelLe f g ∧ FuelLe g f

theorem FuelLe.refl (f : Nat → Fueled ε α) : FuelLe f f := fun n => ⟨n, .refl _⟩

theorem FuelEq.refl (f : Nat → Fueled ε α) : FuelEq f f := ⟨.refl f, .refl f⟩

theorem FuelLe.trans {f g h : Nat → Fueled ε α} (hfg : FuelLe f g) (hgh : FuelLe g h) :
    FuelLe f h := by
  intro n
  obtain ⟨m, hm⟩ := hfg n
  obtain ⟨l, hl⟩ := hgh m
  exact ⟨l, hm.trans hl⟩

theorem FuelEq.symm {f g : Nat → Fueled ε α} (h : FuelEq f g) : FuelEq g f := ⟨h.2, h.1⟩

theorem FuelEq.trans {f g h : Nat → Fueled ε α} (hfg : FuelEq f g) (hgh : FuelEq g h) :
    FuelEq f h := ⟨hfg.1.trans hgh.1, hgh.2.trans hfg.2⟩

/-- One level more or less makes no difference. -/
theorem FuelEq.succ {f g : Nat → Fueled ε α} (hf : FuelMono f) (h : ∀ n, f (n + 1) = g n) :
    FuelEq f g := by
  refine ⟨fun n => ⟨n, ?_⟩, fun n => ⟨n + 1, ?_⟩⟩
  · rw [← h]
    exact hf n
  · rw [h]
    exact .refl _

/-- Both parts of a sequence may be compared for themselves. -/
theorem FuelLe.bind {f g : Nat → Fueled ε α} {k l : α → Nat → Fueled ε β} (hg : FuelMono g)
    (hl : ∀ a, FuelMono (l a)) (h : FuelLe f g) (hk : ∀ a, FuelLe (k a) (l a)) :
    FuelLe (fun n => f n >>= fun a => k a n) (fun n => g n >>= fun a => l a n) := by
  intro n
  obtain ⟨m, hm⟩ := h n
  cases hr : f n with
  | out =>
    refine ⟨0, ?_⟩
    show Fueled.Approx (f n >>= fun a => k a n) _
    rw [hr]
    exact .out_left _
  | stop e =>
    refine ⟨m, ?_⟩
    rw [hr] at hm
    show Fueled.Approx (f n >>= fun a => k a n) (g m >>= fun a => l a m)
    rw [hr, ← hm.resolve_left (Fueled.stop_ne_out e)]
    exact .refl _
  | done a =>
    obtain ⟨p, hp⟩ := hk a n
    rw [hr] at hm
    refine ⟨max m p, ?_⟩
    show Fueled.Approx (f n >>= fun a => k a n) (g (max m p) >>= fun a => l a (max m p))
    rw [hr, (hg.of_le (Nat.le_max_left m p)).done (hm.done rfl), Fueled.done_bind,
      Fueled.done_bind]
    exact hp.trans ((hl a).of_le (Nat.le_max_right m p))

theorem FuelEq.bind {f g : Nat → Fueled ε α} {k l : α → Nat → Fueled ε β} (hf : FuelMono f)
    (hg : FuelMono g) (hk : ∀ a, FuelMono (k a)) (hl : ∀ a, FuelMono (l a)) (h : FuelEq f g)
    (hkl : ∀ a, FuelEq (k a) (l a)) :
    FuelEq (fun n => f n >>= fun a => k a n) (fun n => g n >>= fun a => l a n) :=
  ⟨h.1.bind hg hl fun a => (hkl a).1, h.2.bind hf hk fun a => (hkl a).2⟩

/-- A family that returns `a` has the answers of the constant one. -/
theorem Yields.fuelEq {f : Nat → Fueled ε α} (hf : FuelMono f) {a : α} (h : Yields f a) :
    FuelEq f (fun _ => .done a) := by
  obtain ⟨n, hn⟩ := h.of_le hf
  refine ⟨fun m => ⟨0, ?_⟩, fun _ => ⟨n, ?_⟩⟩
  · rw [← hn _ (Nat.le_max_left n m)]
    exact hf.of_le (Nat.le_max_right n m)
  · rw [hn n (Nat.le_refl n)]
    exact .refl _

/-- Likewise a family that stops. -/
theorem FuelMono.fuelEq_stop {f : Nat → Fueled ε α} (hf : FuelMono f) {n : Nat} {e : ε}
    (h : f n = .stop e) : FuelEq f (fun _ => .stop e) := by
  refine ⟨fun m => ⟨0, ?_⟩, fun _ => ⟨n, ?_⟩⟩
  · have hlast :=
      (hf.of_le (Nat.le_max_left n m)).resolve_left (by rw [h]; exact Fueled.stop_ne_out e)
    rw [← h, hlast]
    exact hf.of_le (Nat.le_max_right n m)
  · rw [h]
    exact .refl _

/-- A family stops with a fault when one does that has all its answers. -/
theorem FuelLe.stop {f g : Nat → Fueled ε α} (h : FuelLe f g) {n : Nat} {e : ε}
    (hf : f n = .stop e) : ∃ m, g m = .stop e := by
  obtain ⟨m, hm⟩ := h n
  rw [hf] at hm
  exact ⟨m, (hm.resolve_left (Fueled.stop_ne_out e)).symm⟩

/-- Families with the same answers return the same and stop with the same faults. -/
theorem FuelEq.yields_iff {f g : Nat → Fueled ε α} (h : FuelEq f g) {a : α} :
    Yields f a ↔ Yields g a := by
  have hle : ∀ {f g : Nat → Fueled ε α}, FuelLe f g → Yields f a → Yields g a := by
    rintro f g hfg ⟨n, hn⟩
    obtain ⟨m, hm⟩ := hfg n
    exact ⟨m, hm.done hn⟩
  exact ⟨hle h.1, hle h.2⟩

/-- Equivalent functions have the same faults. -/
theorem FuelEq.faults_iff {f g : Nat → Fueled ε α} (h : FuelEq f g) {e : ε} :
    Faults f e ↔ Faults g e :=
  ⟨fun ⟨_, hn⟩ => h.1.stop hn, fun ⟨_, hn⟩ => h.2.stop hn⟩

/-- The first part of a sequence may be replaced by one with the same answers. -/
theorem FuelEq.bind_left {f g : Nat → Fueled ε α} {k : α → Nat → Fueled ε β} (hf : FuelMono f)
    (hg : FuelMono g) (hk : ∀ a, FuelMono (k a)) (h : FuelEq f g) :
    FuelEq (fun n => f n >>= fun a => k a n) (fun n => g n >>= fun a => k a n) :=
  h.bind hf hg hk hk fun _ => .refl _

/-- A first part that returns `a` leaves the answers to the second. -/
theorem Yields.fuelEq_bind {f : Nat → Fueled ε α} {k : α → Nat → Fueled ε β} {a : α}
    (hf : FuelMono f) (hk : ∀ a, FuelMono (k a)) (h : Yields f a) :
    FuelEq (fun n => f n >>= fun a => k a n) (k a) :=
  (h.fuelEq hf).bind_left hf (fun _ => .refl _) hk

end Families

end SystemsProjects
