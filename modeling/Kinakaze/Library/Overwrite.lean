import Mathlib.Data.List.Pairwise
import Mathlib.Data.List.Flatten
import Mathlib.Tactic.Common

/-!
# Overwriting part of a table

A table of entries, each with the places it covers and a value at each of them, stands for a
partial function of the place.  Overwriting leaves of each entry the pieces outside the new one.

* `valueAt_eq_some_iff`: where entries cover different places, their order does not matter.
-/

namespace Kinakaze.Library

variable {α β π : Type} (covers : α → π → Bool) (value : α → π → β)

/-- The value at a place, that of the first entry that covers it. -/
def valueAt (entries : List α) (place : π) : Option β :=
  (entries.find? (covers · place)).map (value · place)

/-- No place is covered by both. -/
def Exclusive (x y : α) : Prop := ∀ place, covers x place = true → covers y place = false

variable {covers value}

theorem valueAt_eq_some_iff {entries : List α} (h : entries.Pairwise (Exclusive covers))
    {place : π} {b : β} : valueAt covers value entries place = some b ↔
      ∃ x ∈ entries, covers x place = true ∧ value x place = b := by
  induction entries with
  | nil => simp [valueAt]
  | cons x rest ih =>
    obtain ⟨hx, hrest⟩ := List.pairwise_cons.mp h
    by_cases hcovers : covers x place = true
    · have hfirst : valueAt covers value (x :: rest) place = some (value x place) := by
        simp [valueAt, hcovers]
      rw [hfirst, Option.some_inj]
      constructor
      · exact fun hb => ⟨x, List.mem_cons_self, hcovers, hb⟩
      · rintro ⟨y, hy, hplace, rfl⟩
        rcases List.mem_cons.mp hy with rfl | hlater
        · rfl
        · rw [hx y hlater place hcovers] at hplace
          cases hplace
    · have hskip : valueAt covers value (x :: rest) place = valueAt covers value rest place := by
        simp [valueAt, hcovers]
      rw [hskip, ih hrest]
      simp only [List.mem_cons, or_and_right, exists_or, exists_eq_left]
      exact ⟨.inr, fun h => h.resolve_left fun hboth => hcovers hboth.1⟩

/-- The entries of `after` are those of `before`, cut down to the places outside `new`, and `new`. -/
theorem valueAt_overwrite {before after : List α} {carve : α → List α} {new : α}
    (hbefore : before.Pairwise (Exclusive covers)) (hafter : after.Pairwise (Exclusive covers))
    (hperm : after.Perm (new :: before.flatMap carve))
    (hcarve : ∀ x ∈ before, ∀ place b, (∃ y ∈ carve x, covers y place = true ∧ value y place = b) ↔
      covers x place = true ∧ covers new place = false ∧ value x place = b) (place : π) :
    valueAt covers value after place =
      if covers new place then some (value new place) else valueAt covers value before place := by
  ext b
  rw [valueAt_eq_some_iff hafter]
  have hpieces : (∃ y ∈ before.flatMap carve, covers y place = true ∧ value y place = b) ↔
      ∃ x ∈ before, covers x place = true ∧ covers new place = false ∧ value x place = b := by
    constructor
    · rintro ⟨y, hy, hplace⟩
      obtain ⟨x, hx, hpiece⟩ := List.mem_flatMap.mp hy
      exact ⟨x, hx, (hcarve x hx place b).mp ⟨y, hpiece, hplace⟩⟩
    · rintro ⟨x, hx, hplace⟩
      obtain ⟨y, hy, hplace'⟩ := (hcarve x hx place b).mpr hplace
      exact ⟨y, List.mem_flatMap.mpr ⟨x, hx, hy⟩, hplace'⟩
  have hsplit : (∃ y ∈ after, covers y place = true ∧ value y place = b) ↔
      (covers new place = true ∧ value new place = b) ∨
        ∃ y ∈ before.flatMap carve, covers y place = true ∧ value y place = b := by
    simp only [hperm.mem_iff, List.mem_cons, or_and_right, exists_or, exists_eq_left]
  rw [hsplit, hpieces]
  by_cases hnew : covers new place = true
  · simp [hnew]
  · rw [if_neg hnew, valueAt_eq_some_iff hbefore]
    simp [hnew]

end Kinakaze.Library
