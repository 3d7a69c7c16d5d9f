import Mathlib.Logic.Relation
import Mathlib.Tactic.Common

/-!
# Cycles of a relation that changes

A relation is acyclic when nothing leads from a point back to it.  Three
changes are followed: edges go away, edges out of one point appear, and edges
into one point without edges out of it appear.
-/

namespace Kinakaze.Library

open Relation

variable {α : Type} {R R' : α → α → Prop}

/-- No point leads back to itself. -/
def Acyclic (R : α → α → Prop) : Prop := ∀ a, ¬ TransGen R a a

/-- Fewer edges make no cycle. -/
theorem Acyclic.mono (h : Acyclic R) (hsub : ∀ a b, R' a b → R a b) : Acyclic R' :=
  fun a hcycle => h a (TransGen.mono hsub a a hcycle)

/-- The relation with edges from `origin` to the points of `targets` added. -/
def Extended (R : α → α → Prop) (origin : α) (targets : α → Prop) (a b : α) : Prop :=
  R a b ∨ (a = origin ∧ targets b)

variable {origin : α} {targets : α → Prop}

/-- A path of the extended relation is an old one, or leads to `origin` and from
one of the targets on by old edges. -/
theorem path_of_extended {a b : α} (h : ReflTransGen (Extended R origin targets) a b) :
    ReflTransGen R a b ∨
      (ReflTransGen R a origin ∧ ∃ target, targets target ∧ ReflTransGen R target b) := by
  induction h with
  | refl => exact Or.inl .refl
  | tail _ hstep ih =>
    rcases hstep with hold | ⟨rfl, htarget⟩
    · rcases ih with hpath | ⟨hpath, target, htarget, hrest⟩
      · exact Or.inl (hpath.tail hold)
      · exact Or.inr ⟨hpath, target, htarget, hrest.tail hold⟩
    · rcases ih with hpath | ⟨hpath, -⟩
      · exact Or.inr ⟨hpath, _, htarget, .refl⟩
      · exact Or.inr ⟨hpath, _, htarget, .refl⟩

theorem cycle_of_target {target : α} (htarget : targets target)
    (hpath : ReflTransGen R target origin) :
    TransGen (Extended R origin targets) origin origin := by
  have hlift : ReflTransGen (Extended R origin targets) target origin :=
    ReflTransGen.mono (fun _ _ => Or.inl) _ _ hpath
  exact TransGen.head' (Or.inr ⟨rfl, htarget⟩) hlift

theorem target_of_cycle (h : Acyclic R) {a : α} (hcycle : TransGen (Extended R origin targets) a a)
    :
    ∃ target, targets target ∧ ReflTransGen R target origin := by
  obtain ⟨b, hstep, hback⟩ := TransGen.head'_iff.mp hcycle
  rcases hstep with hold | ⟨rfl, htarget⟩
  · rcases path_of_extended hback with hpath | ⟨hpath, target, htarget, hrest⟩
    · exact absurd (TransGen.head' hold hpath) (h a)
    · exact ⟨target, htarget, hrest.trans (hpath.head hold)⟩
  · rcases path_of_extended hback with hpath | ⟨-, target, htarget', hrest⟩
    · exact ⟨b, htarget, hpath⟩
    · exact ⟨target, htarget', hrest⟩

/-- The added edges make a cycle through `origin` exactly when a target leads
to it. -/
theorem extended_cycle_iff (h : Acyclic R) : TransGen (Extended R origin targets) origin origin ↔
      ∃ target, targets target ∧ ReflTransGen R target origin :=
  ⟨target_of_cycle h, fun ⟨_, htarget, hpath⟩ => cycle_of_target htarget hpath⟩

/-- If no target leads to `origin` the added edges make no cycle at all. -/
theorem Acyclic.extend (h : Acyclic R)
    (hnone : ¬ ∃ target, targets target ∧ ReflTransGen R target origin) :
    Acyclic (Extended R origin targets) :=
  fun _ hcycle => hnone (target_of_cycle h hcycle)

/-- A path that ends before the sink uses old edges only. -/
theorem path_of_into {sink : α} (hnew : ∀ a b, R' a b → R a b ∨ b = sink)
    (hsink : ∀ b, ¬ R' sink b) {a b : α} (hpath : TransGen R' a b) (hb : b ≠ sink) :
    TransGen R a b := by
  induction hpath with
  | single hstep =>
    rcases hnew _ _ hstep with hold | heq
    · exact .single hold
    · exact absurd heq hb
  | @tail b c _ hstep ih =>
    have hmiddle : b ≠ sink := by
      rintro rfl
      exact hsink c hstep
    rcases hnew _ _ hstep with hold | heq
    · exact (ih hmiddle).tail hold
    · exact absurd heq hb

/-- New edges into a point with no edges out of it make no cycle. -/
theorem Acyclic.into (h : Acyclic R) (sink : α)
    (hnew : ∀ a b, R' a b → R a b ∨ b = sink) (hsink : ∀ b, ¬ R' sink b) : Acyclic R' := by
  intro a hcycle
  obtain ⟨b, hstep, -⟩ := TransGen.head'_iff.mp hcycle
  have hne : a ≠ sink := by
    rintro rfl
    exact hsink _ hstep
  exact h a (path_of_into hnew hsink hcycle hne)

end Kinakaze.Library

/-!
## Iterating a relation

`Iterate R n a b`: `n` steps of `R` lead from `a` to `b`.

* `Iterate.snoc`, `Iterate.add`: steps at the end.
* `Iterate.moving`: the steps that stay where they are can be left out.
-/

namespace Kinakaze.Library

variable {α : Type} {R S : α → α → Prop}

def Iterate (R : α → α → Prop) : Nat → α → α → Prop
  | 0, a, b => a = b
  | n + 1, a, b => ∃ c, R a c ∧ Iterate R n c b

/-- The steps of `R` that go somewhere. -/
def Moving (R : α → α → Prop) (a b : α) : Prop := R a b ∧ b ≠ a

variable {n : Nat}

theorem Iterate.mono (h : ∀ a b, R a b → S a b) {a b : α} (hR : Iterate R n a b) :
    Iterate S n a b := by
  induction n generalizing a with
  | zero => exact hR
  | succ n ih =>
    obtain ⟨c, hstep, hrest⟩ := hR
    exact ⟨c, h a c hstep, ih hrest⟩

theorem Iterate.add {m : Nat} {a b c : α} (h : Iterate R m a b) (h' : Iterate R n b c) :
    Iterate R (m + n) a c := by
  induction m generalizing a with
  | zero =>
    obtain rfl : a = b := h
    rw [Nat.zero_add]
    exact h'
  | succ m ih =>
    obtain ⟨d, hstep, hrest⟩ := h
    rw [Nat.succ_add]
    exact ⟨d, hstep, ih hrest⟩

theorem iterate_one {a b : α} : Iterate R 1 a b ↔ R a b := by
  constructor
  · rintro ⟨c, hstep, rfl⟩
    exact hstep
  · exact fun h => ⟨b, h, rfl⟩

theorem Iterate.snoc {a b c : α} (h : Iterate R n a b) (h' : R b c) :
    Iterate R (n + 1) a c := h.add (iterate_one.mpr h')

theorem iterate_succ_right {a b : α} : Iterate R (n + 1) a b ↔ ∃ c, Iterate R n a c ∧ R c b := by
  constructor
  · intro h
    induction n generalizing a with
    | zero => exact ⟨a, rfl, iterate_one.mp h⟩
    | succ n ih =>
      obtain ⟨d, hstep, hrest⟩ := h
      obtain ⟨c, hbefore, hlast⟩ := ih hrest
      exact ⟨c, ⟨d, hstep, hbefore⟩, hlast⟩
  · rintro ⟨c, hbefore, hlast⟩
    exact hbefore.snoc hlast

/-- A step that stays can be repeated. -/
theorem iterate_stay {a : α} (h : R a a) (n : Nat) : Iterate R n a a := by
  induction n with
  | zero => rfl
  | succ n ih => exact ⟨a, h, ih⟩

/-- The steps that stay can be left out; if no other is left, there was none, or the end has one. -/
theorem Iterate.moving {a b : α} (h : Iterate R n a b) :
    ∃ k ≤ n, Iterate (Moving R) k a b ∧ (k = 0 → n = 0 ∨ R b b) := by
  induction n generalizing a with
  | zero => exact ⟨0, Nat.le_refl _, h, fun _ => .inl rfl⟩
  | succ n ih =>
    obtain ⟨c, hstep, hrest⟩ := h
    obtain ⟨k, hk, hmoving, hstay⟩ := ih hrest
    by_cases hsame : c = a
    · subst hsame
      refine ⟨k, Nat.le_succ_of_le hk, hmoving, fun hzero => .inr ?_⟩
      subst hzero
      obtain rfl : c = b := hmoving
      exact hstep
    · exact ⟨k + 1, Nat.succ_le_succ hk, ⟨c, ⟨hstep, hsame⟩, hmoving⟩, fun hzero => (nomatch hzero)⟩

end Kinakaze.Library
