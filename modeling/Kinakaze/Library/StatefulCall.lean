import Mathlib.Data.List.Forall2
import Mathlib.Tactic.Common

/-!
# Calls that mutate a state and may fail on the way

A call reads and writes a state `σ`, and either returns or stops with an error
`ε`.  Stopping does not roll anything back: whatever the call wrote before the
error is part of the state it leaves behind.  That is the reading of a method
taking `&mut self` and returning a `Result`, and it makes "a failed call
changes nothing" a theorem about the call instead of a property of the monad.

`wp` is the weakest precondition of a call for one postcondition on each of
the two ways it can end.  The rules below are all `simp` equations, so a goal
`wp call onOk onError s` for a straight-line call computes to the tree of its
checks with the postconditions at the leaves.
-/

namespace Kinakaze.Library

universe u

/-- A call over the state `σ` that may stop with an error `ε`. -/
abbrev Call (ε σ α : Type u) := ExceptT ε (StateM σ) α

variable {ε σ α β : Type u}

/-- Run a call: its outcome, and the state it leaves behind in either case. -/
def exec (call : Call ε σ α) (s : σ) : Except ε α × σ := call.run.run s

/-- The weakest precondition of `call` for `onOk` at a normal return and
`onError` at an early stop. -/
def wp (call : Call ε σ α) (onOk : α → σ → Prop) (onError : ε → σ → Prop) (s : σ) : Prop :=
  match exec call s with
  | (.ok a, s') => onOk a s'
  | (.error e, s') => onError e s'

/-- Stop with `e` when `bad` holds. -/
def failIf (bad : Prop) [Decidable bad] (e : ε) : Call ε σ PUnit :=
  if bad then throw e else pure ⟨⟩

/-- The value of an option, or stop with `e`. -/
def require (found : Option α) (e : ε) : Call ε σ α :=
  match found with
  | some a => pure a
  | none => throw e

/-! ## Running -/

@[simp] theorem exec_pure (a : α) (s : σ) :
    exec (pure a : Call ε σ α) s = (.ok a, s) := rfl

@[simp] theorem exec_throw (e : ε) (s : σ) :
    exec (throw e : Call ε σ α) s = (.error e, s) := rfl

@[simp] theorem exec_get (s : σ) :
    exec (get : Call ε σ σ) s = (.ok s, s) := rfl

@[simp] theorem exec_set (s s' : σ) :
    exec (set s' : Call ε σ PUnit) s = (.ok ⟨⟩, s') := rfl

@[simp] theorem exec_modify (f : σ → σ) (s : σ) :
    exec (modify f : Call ε σ PUnit) s = (.ok ⟨⟩, f s) := rfl

theorem exec_bind (call : Call ε σ α) (next : α → Call ε σ β) (s : σ) :
    exec (call >>= next) s = match exec call s with
      | (.ok a, s') => exec (next a) s'
      | (.error e, s') => (.error e, s') := by
  unfold exec
  simp only [ExceptT.run_bind, StateT.run_bind]
  change (match call.run.run s with | (r, s') => _) = _
  rcases call.run.run s with ⟨_ | _, _⟩ <;> rfl

/-! ## Weakest preconditions -/

section Rules

variable {onOk : α → σ → Prop} {onError : ε → σ → Prop} {s : σ}

@[simp] theorem wp_pure (a : α) :
    wp (pure a : Call ε σ α) onOk onError s ↔ onOk a s := Iff.rfl

@[simp] theorem wp_throw (e : ε) :
    wp (throw e : Call ε σ α) onOk onError s ↔ onError e s := Iff.rfl

@[simp] theorem wp_get {onOk : σ → σ → Prop} :
    wp (get : Call ε σ σ) onOk onError s ↔ onOk s s := Iff.rfl

@[simp] theorem wp_set {onOk : PUnit → σ → Prop} (s' : σ) :
    wp (set s' : Call ε σ PUnit) onOk onError s ↔ onOk ⟨⟩ s' := Iff.rfl

@[simp] theorem wp_modify {onOk : PUnit → σ → Prop} (f : σ → σ) :
    wp (modify f : Call ε σ PUnit) onOk onError s ↔ onOk ⟨⟩ (f s) := Iff.rfl

@[simp] theorem wp_bind {onOk : β → σ → Prop} (call : Call ε σ α) (next : α → Call ε σ β) :
    wp (call >>= next) onOk onError s ↔ wp call (fun a => wp (next a) onOk onError) onError s := by
  simp only [wp, exec_bind]
  rcases exec call s with ⟨_ | _, _⟩ <;> rfl

@[simp] theorem wp_ite (c : Prop) [Decidable c] (yes no : Call ε σ α) :
    wp (if c then yes else no) onOk onError s ↔
      (c → wp yes onOk onError s) ∧ (¬c → wp no onOk onError s) := by
  by_cases hc : c <;> simp [hc]

@[simp] theorem wp_failIf {onOk : PUnit → σ → Prop} (bad : Prop) [Decidable bad] (e : ε) :
    wp (failIf bad e : Call ε σ PUnit) onOk onError s ↔
      (bad → onError e s) ∧ (¬bad → onOk ⟨⟩ s) := by
  simp [failIf]

@[simp] theorem wp_require (found : Option α) (e : ε) :
    wp (require found e : Call ε σ α) onOk onError s ↔
      (found = none → onError e s) ∧ (∀ a, found = some a → onOk a s) := by
  cases found <;> simp [require]

/-- Consequence: both postconditions may be weakened. -/
theorem wp_mono {onOk' : α → σ → Prop} {onError' : ε → σ → Prop}
    {call : Call ε σ α} (h : wp call onOk onError s) (hok : ∀ a s', onOk a s' → onOk' a s')
    (herror : ∀ e s', onError e s' → onError' e s') : wp call onOk' onError' s := by
  rcases hrun : exec call s with ⟨_ | _, _⟩ <;> simp only [wp, hrun] at h ⊢
  · exact herror _ _ h
  · exact hok _ _ h

/-- What a `wp` fact says about the outcome of the call. -/
theorem wp_iff_exec (call : Call ε σ α) :
    wp call onOk onError s ↔ (∀ a, (exec call s).1 = .ok a → onOk a (exec call s).2) ∧
        ∀ e, (exec call s).1 = .error e → onError e (exec call s).2 := by
  unfold wp
  rcases exec call s with ⟨_ | _, _⟩ <;> simp

/-- A traversal whose calls only read: each result satisfies `P` and the state is
as before. -/
theorem wp_mapM {f : α → Call ε σ β} {P : α → β → Prop}
    {l : List α} (h : ∀ a ∈ l, wp (f a) (fun b s' => s' = s ∧ P a b) onError s) :
    wp (l.mapM f) (fun bs s' => s' = s ∧ List.Forall₂ P l bs) onError s := by
  induction l with
  | nil =>
    rw [List.mapM_nil, wp_pure]
    exact ⟨rfl, .nil⟩
  | cons a l ih =>
    rw [List.mapM_cons, wp_bind]
    refine wp_mono (h a List.mem_cons_self) (fun b s' hb => ?_) fun _ _ he => he
    obtain ⟨rfl, hb⟩ := hb
    rw [wp_bind]
    refine wp_mono (ih fun c hc => h c (List.mem_cons_of_mem _ hc)) (fun bs s' hbs => ?_)
      fun _ _ he => he
    obtain ⟨rfl, hbs⟩ := hbs
    exact ⟨rfl, .cons hb hbs⟩

/-- A loop that carries a value: `I` is what holds after the items so far. -/
theorem wp_foldlM {f : β → α → Call ε σ β} {I : List α → β → σ → Prop} (l : List α)
    (hstep : ∀ front a back b s, l = front ++ a :: back → I front b s →
      wp (f b a) (I (front ++ [a])) onError s)
    {b : β} (h : I [] b s) : wp (l.foldlM f b) (I l) onError s := by
  suffices hall : ∀ back front b s, l = front ++ back → I front b s →
      wp (back.foldlM f b) (I l) onError s from hall l [] b s rfl h
  intro back
  induction back with
  | nil =>
    intro front b s hl hI
    rw [List.append_nil] at hl
    rw [List.foldlM_nil, wp_pure, hl]
    exact hI
  | cons a back ih =>
    intro front b s hl hI
    rw [List.foldlM_cons, wp_bind]
    exact wp_mono (hstep front a back b s hl hI)
      (fun b s hnext => ih (front ++ [a]) b s (by rw [hl, List.append_assoc]; rfl) hnext)
      fun _ _ he => he

end Rules

/-! ## Calls without a state

How a call that ended well is taken apart: `bind_ok` for one part of it after another,
`guard_ok` for a check in front of the rest.
-/

section Stateless

variable {ε α β : Type}

theorem bind_ok {x : Except ε α} {f : α → Except ε β} {b : β} :
    (x >>= f) = .ok b ↔ ∃ a : α, x = .ok a ∧ f a = .ok b := by
  cases x <;> simp [bind, Except.bind]

theorem guard_ok {p : Prop} [Decidable p] {e : ε} {f : α → Except ε β} {x : Except ε β} {b : β} :
    (if p then (throw e : Except ε α) >>= f else x) = .ok b ↔ ¬p ∧ x = .ok b := by
  by_cases hp : p
  · rw [if_pos hp]
    exact ⟨nofun, fun h => absurd hp h.1⟩
  · rw [if_neg hp]
    exact ⟨fun h => ⟨hp, h⟩, fun h => h.2⟩

end Stateless

end Kinakaze.Library
