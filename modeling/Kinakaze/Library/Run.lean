import Mathlib.Tactic.Common

/-!
# Runs of a deterministic machine

A machine is a function `step : σ → α → σ` from a state and an input to the
next state.  A run feeds it a list of inputs.  Two kinds of statement are made
about runs: a property of every reachable state, and a property that is kept
from some state on as long as every later step is of a permitted kind.

* `Reachable` and `Reachable.induction`: invariants.
* `EveryStep ok s inputs`: each step of the run from `s` is permitted by `ok`
  in the state it is taken from.
* `EveryState P s inputs`: `P` holds in the first state of the run and in each
  state it reaches.
-/

namespace Kinakaze.Library

section Runs

variable {σ α : Type} (step : σ → α → σ)

/-- The state after feeding `inputs` to the machine. -/
def run (s : σ) (inputs : List α) : σ := inputs.foldl step s

@[simp] theorem run_nil (s : σ) : run step s [] = s := rfl

@[simp] theorem run_cons (s : σ) (a : α) (rest : List α) :
    run step s (a :: rest) = run step (step s a) rest := rfl

theorem run_append (s : σ) (xs ys : List α) : run step s (xs ++ ys) = run step (run step s xs) ys :=
  List.foldl_append

/-- The states some run leads to from an initial state. -/
inductive Reachable (initial : σ → Prop) : σ → Prop
  | start {s : σ} : initial s → Reachable initial s
  | next {s : σ} (a : α) : Reachable initial s → Reachable initial (step s a)

/-- An invariant that holds initially and across each step holds of every
reachable state. -/
theorem Reachable.invariant {initial P : σ → Prop}
    (hinit : ∀ s, initial s → P s) (hstep : ∀ s a, P s → P (step s a)) {s : σ}
    (h : Reachable step initial s) : P s := by
  induction h with
  | start hs => exact hinit _ hs
  | next a _ ih => exact hstep _ a ih

theorem Reachable.run {initial : σ → Prop} {s : σ} (h : Reachable step initial s)
    (inputs : List α) : Reachable step initial (run step s inputs) := by
  induction inputs generalizing s with
  | nil => exact h
  | cons a rest ih => exact ih (h.next a)

/-- Each step of the run from `s` is permitted where it is taken. -/
def EveryStep (ok : σ → α → Prop) : σ → List α → Prop
  | _, [] => True
  | s, a :: rest => ok s a ∧ EveryStep ok (step s a) rest

/-- `P` holds in every state of the run from `s`, the first and last included. -/
def EveryState (P : σ → Prop) : σ → List α → Prop
  | s, [] => P s
  | s, a :: rest => P s ∧ EveryState P (step s a) rest

variable {step} {P : σ → Prop} {s : σ} {inputs : List α}

theorem EveryState.head (h : EveryState step P s inputs) : P s := by
  cases inputs with
  | nil => exact h
  | cons a rest => exact h.1

theorem EveryState.last (h : EveryState step P s inputs) : P (run step s inputs) := by
  induction inputs generalizing s with
  | nil => exact h
  | cons a rest ih => exact ih h.2

theorem EveryState.mono {Q : σ → Prop} (himp : ∀ s, P s → Q s)
    (h : EveryState step P s inputs) : EveryState step Q s inputs := by
  induction inputs generalizing s with
  | nil => exact himp s h
  | cons a rest ih => exact ⟨himp s h.1, ih h.2⟩

variable {ok : σ → α → Prop}

/-- A property that permitted steps preserve survives a run of permitted steps. -/
theorem run_preserves (hstep : ∀ s a, P s → ok s a → P (step s a))
    (hs : P s) (hok : EveryStep step ok s inputs) : P (run step s inputs) := by
  induction inputs generalizing s with
  | nil => exact hs
  | cons a rest ih => exact ih (hstep s a hs hok.1) hok.2

/-- The states on the way satisfy a preserved property as well. -/
theorem EveryState.of_preserved (hstep : ∀ s a, P s → ok s a → P (step s a))
    (hs : P s) (hok : EveryStep step ok s inputs) : EveryState step P s inputs := by
  induction inputs generalizing s with
  | nil => exact hs
  | cons a rest ih => exact ⟨hs, ih (hstep s a hs hok.1) hok.2⟩

theorem EveryState.of_invariant (hstep : ∀ s a, P s → P (step s a))
    (inputs : List α) (hs : P s) : EveryState step P s inputs := by
  induction inputs generalizing s with
  | nil => exact hs
  | cons a rest ih => exact ⟨hs, ih (hstep s a hs)⟩

/-- Where a background invariant `I` holds and a step from a good state leads to
a good state exactly when it is permitted, a run stays good exactly when all of
its steps are permitted. -/
theorem everyState_iff_everyStep {I : σ → Prop} (hinv : ∀ s a, I s → I (step s a))
    (hstep : ∀ s a, I s → P s → (P (step s a) ↔ ok s a)) (hI : I s) (hs : P s) :
    EveryState step P s inputs ↔ EveryStep step ok s inputs := by
  induction inputs generalizing s with
  | nil => simp [EveryState, EveryStep, hs]
  | cons a rest ih =>
    constructor
    · rintro ⟨-, hrest⟩
      have hnext := hrest.head
      exact ⟨(hstep s a hI hs).mp hnext, (ih (hinv s a hI) hnext).mp hrest⟩
    · rintro ⟨hok, hrest⟩
      have hnext := (hstep s a hI hs).mpr hok
      exact ⟨hs, (ih (hinv s a hI) hnext).mpr hrest⟩

end Runs

end Kinakaze.Library

/-!
## What a run has gained and not lost since

Each step of a run may gain a property or lose it.  `Since` says of a whole run
that the property was there from the start or gained on the way, and that no
later step lost it; `run_iff_since` is the induction that leads there from what
one step does.
-/

namespace Kinakaze.Library

variable {σ α : Type} (step : σ → α → σ) (start : Prop) (gains loses : σ → α → Prop)

/-- No step of the run loses the property. -/
def Unlost : σ → List α → Prop := EveryStep step fun s a => ¬loses s a

/-- There from the start or gained on the way, and not lost since. -/
def Since (s : σ) (inputs : List α) : Prop :=
  (start ∧ Unlost step loses s inputs) ∨
    ∃ before a after, inputs = before ++ a :: after ∧ gains (run step s before) a ∧
      Unlost step loses (step (run step s before) a) after

variable {step start gains loses}

theorem since_nil {s : σ} : Since step start gains loses s [] ↔ start := by
  constructor
  · rintro (h | ⟨before, a, after, heq, -⟩)
    · exact h.1
    · simp at heq
  · exact fun h => .inl ⟨h, trivial⟩

/-- The first step decides what the rest of the run starts with. -/
theorem since_cons {s : σ} {a : α} {rest : List α} : Since step start gains loses s (a :: rest) ↔
      Since step (gains s a ∨ start ∧ ¬loses s a) gains loses (step s a) rest := by
  constructor
  · rintro (⟨hstart, hkept⟩ | ⟨before, b, after, heq, hgain, hkept⟩)
    · exact .inl ⟨.inr ⟨hstart, hkept.1⟩, hkept.2⟩
    · cases before with
      | nil =>
        obtain ⟨rfl, rfl⟩ := List.cons.inj heq
        exact .inl ⟨.inl hgain, hkept⟩
      | cons first before =>
        obtain ⟨rfl, rfl⟩ := List.cons.inj heq
        exact .inr ⟨before, b, after, rfl, hgain, hkept⟩
  · rintro (⟨hgain | ⟨hstart, hnot⟩, hkept⟩ | ⟨before, b, after, rfl, hgain, hkept⟩)
    · exact .inr ⟨[], a, rest, rfl, hgain, hkept⟩
    · exact .inl ⟨hstart, hnot, hkept⟩
    · exact .inr ⟨a :: before, b, after, rfl, hgain, hkept⟩

/-- Where `I` holds, a permitted step leaves `P` exactly if it gains it or does not lose it. -/
theorem run_iff_since {ok : σ → α → Prop} {I P : σ → Prop}
    (hkeep : ∀ s a, I s → ok s a → I (step s a))
    (hstep : ∀ s a, I s → ok s a → (P (step s a) ↔ gains s a ∨ P s ∧ ¬loses s a))
    {s : σ} {inputs : List α} (hs : I s) (hok : EveryStep step ok s inputs) :
    P (run step s inputs) ↔ Since step (P s) gains loses s inputs := by
  induction inputs generalizing s with
  | nil => exact since_nil.symm
  | cons a rest ih =>
    rw [run_cons, ih (hkeep s a hs hok.1) hok.2, hstep s a hs hok.1, since_cons]

end Kinakaze.Library
