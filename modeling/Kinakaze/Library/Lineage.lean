import Mathlib.Data.List.Nodup
import Mathlib.Logic.Relation

/-!
# Lineages

A table of parent links is a partial function `parent : α → Option α` together
with a value `z` that stands for "no parent".  The lineage of `a` is the list of
everything met on the way from `a` to `z`.  It need not exist: a chain of links
may leave the table or run in a circle.

* `Lineage.nodup`: a lineage repeats nothing.
* `Lineage.antisymm`: of two different members at most one is above the other.
* `Lineage.reaches`, `Lineage.mem_of_reaches`: its members are what the links lead to.
* `Lineage.relink`, `no_lineage_of_relink`: giving `x` the parent `y` keeps every
  lineage exactly when `x` is not on the lineage of `y`.
* `Lineage.insert`, `Lineage.remove`: a new leaf, and a removed member whose
  children go to `z`.
-/

namespace Kinakaze.Library

variable {α : Type} {parent parent' : α → Option α} {z : α}

/-- `Lineage parent z a path`: following the links from `a` visits `path` and
then reaches `z`. -/
inductive Lineage (parent : α → Option α) (z : α) : α → List α → Prop
  | root : Lineage parent z z []
  | step {a b : α} {path : List α} : a ≠ z → parent a = some b → Lineage parent z b path →
      Lineage parent z a (a :: path)

variable {path : List α} {a : α}

theorem Lineage.unique {path' : List α} (h : Lineage parent z a path)
    (h' : Lineage parent z a path') : path = path' := by
  induction h generalizing path' with
  | root =>
    cases h' with
    | root => rfl
    | step hne => exact absurd rfl hne
  | step hne hlink _ ih =>
    cases h' with
    | root => exact absurd rfl hne
    | step _ hlink' hrest =>
      rw [hlink] at hlink'
      cases hlink'
      rw [ih hrest]

variable {b : α}

/-- `z` is not a member. -/
theorem Lineage.ne_root (h : Lineage parent z a path) (hb : b ∈ path) : b ≠ z := by
  induction h with
  | root => cases hb
  | step hne _ _ ih =>
    rcases List.mem_cons.mp hb with rfl | hb
    · exact hne
    · exact ih hb

/-- Every member of a lineage has a lineage, which is the rest of this one. -/
theorem Lineage.tail (h : Lineage parent z a path)
    (hb : b ∈ path) : ∃ rest : List α, Lineage parent z b rest ∧ rest <:+ path := by
  induction h with
  | root => cases hb
  | @step a c path hne hlink hrest ih =>
    rcases List.mem_cons.mp hb with rfl | hb
    · exact ⟨b :: path, .step hne hlink hrest, List.suffix_refl _⟩
    · obtain ⟨rest, hline, hsuffix⟩ := ih hb
      exact ⟨rest, hline, hsuffix.trans (List.suffix_cons _ _)⟩

theorem Lineage.nodup (h : Lineage parent z a path) : path.Nodup := by
  induction h with
  | root => exact List.nodup_nil
  | @step a b path hne hlink hrest ih =>
    refine List.nodup_cons.mpr ⟨fun hmem => ?_, ih⟩
    -- A repeated member would have a lineage shorter than itself.
    obtain ⟨rest, hline, hsuffix⟩ := hrest.tail hmem
    have hlen := hsuffix.length_le
    rw [hline.unique (.step hne hlink hrest)] at hlen
    exact Nat.not_succ_le_self _ hlen

theorem Lineage.antisymm {path' : List α} (h : Lineage parent z a path)
    (h' : Lineage parent z b path') (hb : b ∈ path) (ha : a ∈ path') : a = b := by
  obtain ⟨rest, hline, hsuffix⟩ := h.tail hb
  obtain ⟨rest', hline', hsuffix'⟩ := h'.tail ha
  obtain rfl := hline.unique h'
  obtain rfl := hline'.unique h
  have hpath := hsuffix.eq_of_length_le hsuffix'.length_le
  cases h with
  | root => cases hb
  | step =>
    cases h' with
    | root => cases ha
    | step => exact (List.cons.inj hpath).1.symm

/-- Links that agree along a lineage have the same lineage. -/
theorem Lineage.congr (h : Lineage parent z a path)
    (hagree : ∀ b ∈ path, parent' b = parent b) : Lineage parent' z a path := by
  induction h with
  | root => exact .root
  | @step a b path hne hlink hrest ih =>
    refine .step hne ((hagree a List.mem_cons_self).trans hlink) (ih fun c hc => ?_)
    exact hagree c (List.mem_cons_of_mem _ hc)

/-! ## Members and links -/

theorem Lineage.reaches (h : Lineage parent z a path)
    (hb : b ∈ path) : Relation.ReflTransGen (fun x y => parent x = some y) a b := by
  induction h with
  | root => cases hb
  | step hne hlink _ ih =>
    rcases List.mem_cons.mp hb with rfl | hb
    · exact .refl
    · exact .head hlink (ih hb)

/-- What the links lead to is on the lineage, `z` apart. -/
theorem Lineage.mem_of_reaches (hz : parent z = none) (h : Lineage parent z a path)
    (hreach : Relation.ReflTransGen (fun x y => parent x = some y) a b) (hb : b ≠ z) :
    b ∈ path := by
  induction h with
  | root =>
    rcases hreach.cases_head with heq | ⟨c, hlink, -⟩
    · exact absurd heq.symm hb
    · rw [hz] at hlink
      cases hlink
  | step hne hlink _ ih =>
    rcases hreach.cases_head with rfl | ⟨c, hlink', hrest⟩
    · exact List.mem_cons_self
    · rw [hlink] at hlink'
      cases hlink'
      exact List.mem_cons_of_mem _ (ih hrest)

section Updates

variable [DecidableEq α]

/-- A member that had no link gets one: nothing above was on its way through it. -/
theorem Lineage.insert {x : α} {link : Option α}
    (h : Lineage parent z a path) (hx : parent x = none)
    (hparent : ∀ b, parent' b = if b = x then link else parent b) : Lineage parent' z a path := by
  refine h.congr fun b hb => ?_
  rw [hparent, if_neg]
  rintro rfl
  obtain ⟨rest, hline, -⟩ := h.tail hb
  cases hline with
  | root => exact h.ne_root hb rfl
  | step _ hlink _ => rw [hx] at hlink; cases hlink

/-- Moving `x` under `y` is harmless when `x` is not above `y`. -/
theorem Lineage.relink {x y : α} {above : List α} (h : Lineage parent z a path)
    (hxz : x ≠ z) (hy : Lineage parent z y above) (hnot : x ∉ above)
    (hparent : ∀ b, parent' b = if b = x then some y else parent b) :
    ∃ path' : List α, Lineage parent' z a path' := by
  have hkeep : ∀ {b : α} {p : List α}, Lineage parent z b p → x ∉ p → Lineage parent' z b p := by
    intro b p hline hx
    refine hline.congr fun c hc => ?_
    rw [hparent, if_neg]
    rintro rfl
    exact hx hc
  induction h with
  | root => exact ⟨[], .root⟩
  | @step a b path hne hlink hrest ih =>
    by_cases hax : a = x
    · subst hax
      exact ⟨a :: above, .step hxz (by rw [hparent, if_pos rfl]) (hkeep hy hnot)⟩
    · obtain ⟨path', hpath'⟩ := ih
      exact ⟨a :: path', .step hne (by rw [hparent, if_neg hax, hlink]) hpath'⟩

/-- Moving `x` under `y` when `x` is above `y` closes a circle. -/
theorem no_lineage_of_relink {x y : α} {above : List α} (hy : Lineage parent z y above)
    (hmem : x ∈ above) (hparent : ∀ b, parent' b = if b = x then some y else parent b) :
    ¬ Lineage parent' z x path := by
  intro h
  -- Up to `x`, the lineage of `y` is the same under both links.
  have hreach : ∀ {b : α} {p : List α}, Lineage parent z b p → x ∈ p →
      ∀ {q : List α}, Lineage parent' z b q → x ∈ q := by
    intro b p hline
    induction hline with
    | root => intro hx; cases hx
    | @step b c p hne hlink hrest ih =>
      intro hx q hq
      cases hq with
      | root => exact absurd rfl hne
      | step _ hlink' hrest' =>
        by_cases hbx : b = x
        · exact hbx ▸ List.mem_cons_self
        rw [hparent, if_neg hbx, hlink] at hlink'
        cases hlink'
        have hx' : x ∈ p := (List.mem_cons.mp hx).resolve_left (Ne.symm hbx)
        exact List.mem_cons_of_mem _ (ih hx' hrest')
  cases h with
  | root => exact hy.ne_root hmem rfl
  | step hne hlink hrest =>
    have hxy : parent' x = some y := by rw [hparent, if_pos rfl]
    rw [hxy] at hlink
    cases hlink
    have hrep := (Lineage.step hne hxy hrest).nodup
    exact (List.nodup_cons.mp hrep).1 (hreach hy hmem hrest)

/-- `x` leaves, and its children have no parent any more. -/
theorem Lineage.remove {x : α} (h : Lineage parent z a path) (hax : a ≠ x)
    (hparent : ∀ b, b ≠ x → parent' b = (parent b).map fun c => if c = x then z else c) :
    ∃ path' : List α, Lineage parent' z a path' := by
  induction h with
  | root => exact ⟨[], .root⟩
  | @step a b path hne hlink hrest ih =>
    have hlink' : parent' a = some (if b = x then z else b) := by
      rw [hparent a hax, hlink, Option.map_some]
    by_cases hbx : b = x
    · rw [if_pos hbx] at hlink'
      exact ⟨[a], .step hne hlink' .root⟩
    · rw [if_neg hbx] at hlink'
      obtain ⟨path', hpath'⟩ := ih hbx
      exact ⟨a :: path', .step hne hlink' hpath'⟩

end Updates

end Kinakaze.Library
