import Mathlib.Data.List.Nodup
import Mathlib.Data.List.Perm.Subperm

/-!
# Slots that are mapped or free

A pool of numbered slots, each of which is free or mapped by one page of one file.

* `Partition.take`: a slot that is taken is mapped, by a page that had none.
-/

namespace Kinakaze.Library

variable {ι : Type}

/-- Every slot below `next` is free or mapped, in one place only. -/
structure Partition (free : List Nat) (next : Nat) (slot : ι → Option Nat) : Prop where
  free_lt : ∀ x ∈ free, x < next
  mapped_lt : ∀ {a x}, slot a = some x → x < next
  nodup : free.Nodup
  apart : ∀ {a x}, slot a = some x → x ∉ free
  injective : ∀ {a b x}, slot a = some x → slot b = some x → a = b
  cover : ∀ x < next, x ∈ free ∨ ∃ a, slot a = some x

/-- The slot that is taken next: the last of the free ones, or a new one. -/
def popSlot (free : List Nat) (next : Nat) : Nat × List Nat × Nat :=
  match free.getLast? with
  | some x => (x, free.dropLast, next)
  | none => (next, free, next + 1)

theorem popSlot_cases (free : List Nat) (next : Nat) :
    (∃ front x, free = front ++ [x] ∧ popSlot free next = (x, front, next)) ∨
      free = [] ∧ popSlot free next = (next, [], next + 1) := by
  unfold popSlot
  rcases List.eq_nil_or_concat free with rfl | ⟨front, x, hfree⟩
  · exact .inr ⟨rfl, rfl⟩
  rw [List.concat_eq_append] at hfree
  subst hfree
  refine .inl ⟨front, x, rfl, ?_⟩
  rw [List.getLast?_concat, List.dropLast_concat]

section Partition

variable {free : List Nat} {next : Nat} {slot : ι → Option Nat} (h : Partition free next slot)

include h

theorem Partition.length_le : free.length ≤ next := by
  have hsub : free.Subperm (List.range next) := h.nodup.subperm fun x hx =>
    List.mem_range.mpr (h.free_lt x hx)
  simpa using hsub.length_le

/-- What is taken was not mapped. -/
theorem Partition.pop_unmapped {a : ι} {x : Nat} (hx : slot a = some x) :
    (popSlot free next).1 ≠ x := by
  rcases popSlot_cases free next with ⟨front, y, rfl, hpop⟩ | ⟨rfl, hpop⟩
  · rw [hpop]
    intro heq
    have heq' : y = x := heq
    exact h.apart hx (by rw [← heq']; simp)
  · rw [hpop]
    have := h.mapped_lt hx
    show next ≠ x
    omega

theorem Partition.take [DecidableEq ι] {a : ι} (hnone : slot a = none) :
    Partition (popSlot free next).2.1 (popSlot free next).2.2
      (fun b => if b = a then some (popSlot free next).1 else slot b) := by
  have hunmapped := fun {b : ι} {x : Nat} => h.pop_unmapped (a := b) (x := x)
  have hinjective : ∀ {b c x}, (if b = a then some (popSlot free next).1 else slot b) = some x →
      (if c = a then some (popSlot free next).1 else slot c) = some x → b = c := by
    intro b c x hb hc
    split at hb <;> split at hc
    · next hba hca => rw [hba, hca]
    · exact absurd (Option.some_inj.mp hb) (hunmapped hc)
    · exact absurd (Option.some_inj.mp hc) (hunmapped hb)
    · exact h.injective hb hc
  rcases popSlot_cases free next with ⟨front, y, rfl, hpop⟩ | ⟨rfl, hpop⟩
  · have hnodup := List.nodup_append.mp h.nodup
    rw [hpop] at hinjective ⊢
    exact
      { free_lt := fun x hx => h.free_lt x (List.mem_append_left _ hx)
        mapped_lt := fun {b x} hb => by
          split at hb
          · cases hb
            exact h.free_lt y (by simp)
          · exact h.mapped_lt hb
        nodup := hnodup.1
        apart := fun {b x} hb hx => by
          split at hb
          · cases hb
            exact hnodup.2.2 y hx y (by simp) rfl
          · exact h.apart hb (List.mem_append_left _ hx)
        injective := hinjective
        cover := fun x hx => by
          rcases h.cover x hx with hfree | ⟨b, hb⟩
          · rcases List.mem_append.mp hfree with hfront | hlast
            · exact .inl hfront
            · rw [List.mem_singleton] at hlast
              exact .inr ⟨a, by rw [if_pos rfl, hlast]⟩
          refine .inr ⟨b, ?_⟩
          rw [if_neg]
          · exact hb
          · rintro rfl
            rw [hnone] at hb
            cases hb }
  · rw [hpop] at hinjective ⊢
    exact
      { free_lt := nofun
        mapped_lt := fun {b x} hb => by
          split at hb
          · cases hb
            exact Nat.lt_succ_self next
          · exact Nat.lt_succ_of_lt (h.mapped_lt hb)
        nodup := List.nodup_nil
        apart := fun {b x} _ hx => by cases hx
        injective := hinjective
        cover := fun x hx => by
          have hx' : x < next + 1 := hx
          by_cases heq : x = next
          · exact .inr ⟨a, by rw [if_pos rfl, heq]⟩
          rcases h.cover x (by omega) with hfree | ⟨b, hb⟩
          · cases hfree
          refine .inr ⟨b, ?_⟩
          rw [if_neg]
          · exact hb
          · rintro rfl
            rw [hnone] at hb
            cases hb }

/-- Mappings that go leave their slots free. -/
theorem Partition.release {slot' : ι → Option Nat} {removed : List Nat}
    (hkept : ∀ {a x}, slot' a = some x → slot a = some x) (hnodup : removed.Nodup)
    (hremoved : ∀ x, x ∈ removed ↔ ∃ a, slot a = some x ∧ slot' a = none) :
    Partition (free ++ removed) next slot' where
  free_lt x hx := by
    rcases List.mem_append.mp hx with hx | hx
    · exact h.free_lt x hx
    · obtain ⟨a, ha, -⟩ := (hremoved x).mp hx
      exact h.mapped_lt ha
  mapped_lt ha := h.mapped_lt (hkept ha)
  nodup := by
    refine List.nodup_append.mpr ⟨h.nodup, hnodup, fun x hx y hy heq => ?_⟩
    obtain ⟨a, ha, -⟩ := (hremoved y).mp hy
    exact h.apart ha (heq ▸ hx)
  apart {a x} ha hx := by
    rcases List.mem_append.mp hx with hx | hx
    · exact h.apart (hkept ha) hx
    obtain ⟨b, hb, hnone⟩ := (hremoved x).mp hx
    have hsame := h.injective (hkept ha) hb
    rw [hsame, hnone] at ha
    cases ha
  injective ha hb := h.injective (hkept ha) (hkept hb)
  cover x hx := by
    rcases h.cover x hx with hfree | ⟨a, ha⟩
    · exact .inl (List.mem_append_left _ hfree)
    · cases ha' : slot' a with
      | none => exact .inl (List.mem_append_right _ ((hremoved x).mpr ⟨a, ha, ha'⟩))
      | some y =>
        have hy := hkept ha'
        rw [ha] at hy
        cases hy
        exact .inr ⟨a, ha'⟩

theorem Partition.perm {mapped : List Nat} (hnodup : mapped.Nodup)
    (hmapped : ∀ x, x ∈ mapped ↔ ∃ a, slot a = some x) :
    (free ++ mapped).Perm (List.range next) := by
  have hboth : (free ++ mapped).Nodup := by
    refine List.nodup_append.mpr ⟨h.nodup, hnodup, fun x hx y hy heq => ?_⟩
    obtain ⟨a, ha⟩ := (hmapped y).mp hy
    exact h.apart ha (heq ▸ hx)
  refine (List.perm_ext_iff_of_nodup hboth List.nodup_range).mpr fun x => ?_
  rw [List.mem_append, hmapped, List.mem_range]
  constructor
  · rintro (hx | ⟨a, ha⟩)
    · exact h.free_lt x hx
    · exact h.mapped_lt ha
  · exact h.cover x

end Partition

end Kinakaze.Library
