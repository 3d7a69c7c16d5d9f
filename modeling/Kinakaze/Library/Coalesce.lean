import Mathlib.Tactic.Common
import Mathlib.Data.List.Pairwise

/-!
# Joining neighbours of a list

One pass over a list that keeps the last element apart and joins the next one
into it when the two belong together.
-/

namespace Kinakaze.Library

section Coalesce

variable {α β : Type} (joins : α → α → Prop) [DecidableRel joins] (join : α → α → α)

/-- The rest of the pass, when `last` is the element in hand. -/
def coalesceFrom : α → List α → List α
  | last, [] => [last]
  | last, next :: rest =>
    if joins last next then coalesceFrom (join last next) rest
    else last :: coalesceFrom next rest

/-- One pass that joins neighbours. -/
def coalesce : List α → List α
  | [] => []
  | first :: rest => coalesceFrom joins join first rest

/-- How joining sits with the order `ahead` in which the list is given. -/
structure Joinable (ahead : α → α → Prop) : Prop where
  /-- A joined element stays ahead of what comes after both. -/
  left : ∀ a b c, ahead a b → joins a b → ahead a c → ahead b c → ahead (join a b) c
  /-- What is ahead of both stays ahead of the joined element. -/
  right : ∀ x a b, ahead a b → joins a b → ahead x a → ahead x b → ahead x (join a b)
  /-- What does not join with the first does not join with the joined element. -/
  head : ∀ x a b, joins a b → ahead x a → ¬ joins x a → ¬ joins x (join a b)
  /-- What does not join with its neighbour joins with nothing behind it. -/
  skip : ∀ x a b, ahead x a → ¬ joins x a → ahead a b → ahead x b → ¬ joins x b

variable {joins join} {ahead : α → α → Prop}

omit [DecidableRel joins] in
theorem Joinable.pairwise (h : Joinable joins join ahead) {a b : α} {rest : List α}
    (hpair : (a :: b :: rest).Pairwise ahead) (hjoins : joins a b) :
    (join a b :: rest).Pairwise ahead := by
  obtain ⟨hfirst, htail⟩ := List.pairwise_cons.mp hpair
  obtain ⟨hsecond, hrest⟩ := List.pairwise_cons.mp htail
  apply List.pairwise_cons.mpr
  constructor
  · intro c hc
    exact h.left a b c (hfirst b (by simp)) hjoins (hfirst c (by simp [hc])) (hsecond c hc)
  · exact hrest

section

variable (h : Joinable joins join ahead)
include h

theorem exists_coalesceFrom (cover : α → β → Prop)
    (hcover : ∀ a b, ahead a b → joins a b → ∀ x, cover (join a b) x ↔ cover a x ∨ cover b x)
    (x : β) (last : α) (rest : List α) (hpair : (last :: rest).Pairwise ahead) :
    (∃ a ∈ coalesceFrom joins join last rest, cover a x) ↔ ∃ a ∈ last :: rest, cover a x := by
  induction rest generalizing last with
  | nil => simp [coalesceFrom]
  | cons next rest ih =>
    rw [coalesceFrom]
    have hahead : ahead last next := (List.pairwise_cons.mp hpair).1 next (by simp)
    split_ifs with hjoins
    · rw [ih (join last next) (h.pairwise hpair hjoins)]
      simp only [List.mem_cons, exists_eq_or_imp, hcover last next hahead hjoins x, or_assoc]
    · have hrest := ih next (List.pairwise_cons.mp hpair).2
      simp only [List.mem_cons, exists_eq_or_imp] at hrest ⊢
      rw [hrest]

/-- Joining neighbours changes nothing of what the elements cover together. -/
theorem exists_coalesce (cover : α → β → Prop)
    (hcover : ∀ a b, ahead a b → joins a b → ∀ x, cover (join a b) x ↔ cover a x ∨ cover b x)
    (x : β) (l : List α) (hpair : l.Pairwise ahead) :
    (∃ a ∈ coalesce joins join l, cover a x) ↔ ∃ a ∈ l, cover a x := by
  cases l with
  | nil => rfl
  | cons first rest => exact exists_coalesceFrom h cover hcover x first rest hpair

/-- What comes out of the pass is behind whatever was ahead of all that went
in, and does not join with it if the element in hand does not. -/
theorem apart_coalesceFrom (x : α) (last : α) (rest : List α)
    (hpair : (last :: rest).Pairwise ahead) (hx : ∀ a ∈ last :: rest, ahead x a)
    (hjoins : ¬ joins x last) :
    ∀ a ∈ coalesceFrom joins join last rest, ahead x a ∧ ¬ joins x a := by
  induction rest generalizing last with
  | nil => simpa [coalesceFrom] using ⟨hx last (by simp), hjoins⟩
  | cons next rest ih =>
    have hlast : ahead x last := hx last (by simp)
    have hnext : ahead x next := hx next (by simp)
    have hahead : ahead last next := (List.pairwise_cons.mp hpair).1 next (by simp)
    rw [coalesceFrom]
    split_ifs with hboth
    · refine ih (join last next) (h.pairwise hpair hboth) ?_ (h.head x last next hboth hlast hjoins)
      intro a ha
      rcases List.mem_cons.mp ha with rfl | ha
      · exact h.right x last next hahead hboth hlast hnext
      · exact hx a (by simp [ha])
    · intro a ha
      rcases List.mem_cons.mp ha with rfl | ha
      · exact ⟨hlast, hjoins⟩
      · exact ih next (List.pairwise_cons.mp hpair).2 (fun b hb => hx b (List.mem_cons_of_mem _ hb))
          (h.skip x last next hlast hjoins hahead hnext) a ha

theorem pairwise_coalesceFrom (last : α) (rest : List α) (hpair : (last :: rest).Pairwise ahead) :
    (coalesceFrom joins join last rest).Pairwise fun a b => ahead a b ∧ ¬ joins a b := by
  induction rest generalizing last with
  | nil => simp [coalesceFrom]
  | cons next rest ih =>
    rw [coalesceFrom]
    split_ifs with hboth
    · exact ih (join last next) (h.pairwise hpair hboth)
    obtain ⟨hlast, htail⟩ := List.pairwise_cons.mp hpair
    apply List.pairwise_cons.mpr
    constructor
    · exact apart_coalesceFrom h last next rest htail hlast hboth
    · exact ih next htail

/-- No two elements that belong together are left, neighbours or not. -/
theorem pairwise_coalesce (l : List α) (hpair : l.Pairwise ahead) :
    (coalesce joins join l).Pairwise fun a b => ahead a b ∧ ¬ joins a b := by
  cases l with
  | nil => exact List.Pairwise.nil
  | cons first rest => exact pairwise_coalesceFrom h first rest hpair

end

end Coalesce

end Kinakaze.Library
