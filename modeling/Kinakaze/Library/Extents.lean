import Mathlib.Tactic.Common
import Mathlib.Data.List.Pairwise

/-!
# Tables of extents

An extent maps a range of numbers to a range of the same length.  A table of extents whose
ranges are disjoint on both sides is a partial injection, and tables compose by meeting the
extents of the one with those of the other.
-/

namespace Kinakaze.Library

structure Extent where
  inside : Nat
  outside : Nat
  count : Nat
  deriving DecidableEq

/-- The extent maps `a` to `b`. -/
def Extent.Maps (e : Extent) (a b : Nat) : Prop :=
  e.inside ≤ a ∧ a < e.inside + e.count ∧ b = e.outside + (a - e.inside)

/-- Some extent of the table maps `a` to `b`. -/
def Maps (table : List Extent) (a b : Nat) : Prop := ∃ e ∈ table, e.Maps a b

/-- The ranges of two extents do not meet, on either side. -/
structure Extent.Disjoint (e f : Extent) : Prop where
  inside : e.inside + e.count ≤ f.inside ∨ f.inside + f.count ≤ e.inside
  outside : e.outside + e.count ≤ f.outside ∨ f.outside + f.count ≤ e.outside

variable {e f p : Extent}

theorem Extent.Disjoint.symm (h : e.Disjoint f) : f.Disjoint e :=
  ⟨h.inside.symm, h.outside.symm⟩

instance : Std.Symm Extent.Disjoint := ⟨fun _ _ h => h.symm⟩

variable {table next : List Extent}

theorem eq_or_disjoint (h : table.Pairwise Extent.Disjoint)
    (he : e ∈ table) (hf : f ∈ table) : e = f ∨ e.Disjoint f := by
  by_cases hef : e = f
  · exact .inl hef
  · exact .inr (h.forall he hf hef)

variable {a b c : Nat}

theorem Maps.functional (h : table.Pairwise Extent.Disjoint)
    (hb : Maps table a b) (hc : Maps table a c) : b = c := by
  obtain ⟨e, he, hlo, hhi, rfl⟩ := hb
  obtain ⟨f, hf, hlo', hhi', rfl⟩ := hc
  rcases eq_or_disjoint h he hf with rfl | hd
  · rfl
  · rcases hd.inside with hd | hd <;> omega

theorem Maps.injective (h : table.Pairwise Extent.Disjoint)
    (ha : Maps table a c) (hb : Maps table b c) : a = b := by
  obtain ⟨e, he, hlo, hhi, rfl⟩ := ha
  obtain ⟨f, hf, hlo', hhi', heq⟩ := hb
  rcases eq_or_disjoint h he hf with rfl | hd
  · omega
  · rcases hd.outside with hd | hd <;> omega

/-! ## Composition -/

/-- The part of `e` that leads into `p`, taken on through `p`. -/
def Extent.meet (e p : Extent) : Option Extent :=
  let lo := max e.outside p.inside
  let hi := min (e.outside + e.count) (p.inside + p.count)
  if lo < hi then some ⟨e.inside + (lo - e.outside), p.outside + (lo - p.inside), hi - lo⟩
  else none

def compose (table next : List Extent) : List Extent :=
  table.flatMap fun e => next.filterMap e.meet

theorem Extent.maps_meet (h : e.meet p = some f) :
    f.Maps a c ↔ ∃ b : Nat, e.Maps a b ∧ p.Maps b c := by
  simp only [Extent.meet] at h
  split at h
  · cases h
    simp only [Extent.Maps]
    have hmax : ∀ b, max e.outside p.inside ≤ b ↔ _ := fun b => Nat.max_le
    have hmin : ∀ b, b < min (e.outside + e.count) (p.inside + p.count) ↔ _ := fun b => Nat.lt_min
    generalize max e.outside p.inside = lo at *
    generalize min (e.outside + e.count) (p.inside + p.count) = hi at *
    have hlo := (hmax lo).mp (Nat.le_refl lo)
    constructor
    · rintro ⟨hstart, hstop, rfl⟩
      obtain ⟨k, rfl⟩ := Nat.exists_eq_add_of_le hstart
      have hhi := (hmin (lo + k)).mp (by omega)
      exact ⟨lo + k, ⟨by omega, by omega, by omega⟩, by omega, by omega, by omega⟩
    · rintro ⟨b, ⟨hstart, hstop, rfl⟩, hstart', hstop', rfl⟩
      obtain ⟨k, rfl⟩ := Nat.exists_eq_add_of_le hstart
      rw [Nat.add_sub_cancel_left] at *
      have hlo' := (hmax _).mpr ⟨Nat.le_add_right _ k, hstart'⟩
      have hhi := (hmin _).mpr ⟨Nat.add_lt_add_left (Nat.add_lt_add_iff_left.mp hstop) _, hstop'⟩
      exact ⟨by omega, by omega, by omega⟩
  · cases h

/-- What two extents map one after the other, their meeting maps. -/
theorem Extent.meet_isSome (he : e.Maps a b) (hp : p.Maps b c) :
    ∃ f : Extent, e.meet p = some f := by
  obtain ⟨hlo, hhi, rfl⟩ := he
  obtain ⟨hlo', hhi', -⟩ := hp
  unfold Extent.meet
  exact ⟨_, if_pos (by omega)⟩

theorem maps_compose :
    Maps (compose table next) a c ↔ ∃ b : Nat, Maps table a b ∧ Maps next b c := by
  constructor
  · rintro ⟨f, hf, hmaps⟩
    obtain ⟨e, he, hf⟩ := List.mem_flatMap.mp hf
    obtain ⟨p, hp, hmeet⟩ := List.mem_filterMap.mp hf
    obtain ⟨b, hb, hc⟩ := (Extent.maps_meet hmeet).mp hmaps
    exact ⟨b, ⟨e, he, hb⟩, p, hp, hc⟩
  · rintro ⟨b, ⟨e, he, hb⟩, p, hp, hc⟩
    obtain ⟨f, hf⟩ := Extent.meet_isSome hb hc
    exact ⟨f, List.mem_flatMap.mpr ⟨e, he, List.mem_filterMap.mpr ⟨p, hp, hf⟩⟩,
      (Extent.maps_meet hf).mpr ⟨b, hb, hc⟩⟩

/-- `e` leads into `p` as a whole. -/
def Extent.Fits (e p : Extent) : Prop :=
  p.inside ≤ e.outside ∧ e.outside + e.count ≤ p.inside + p.count

/-- `e` taken on through `p`. -/
def Extent.through (e p : Extent) : Extent :=
  ⟨e.inside, p.outside + (e.outside - p.inside), e.count⟩

theorem Extent.meet_of_fits (h : e.Fits p) (hcount : 0 < e.count) :
    e.meet p = some (e.through p) := by
  obtain ⟨hlo, hhi⟩ := h
  have hmax : max e.outside p.inside = e.outside := Nat.max_eq_left hlo
  have hmin : min (e.outside + e.count) (p.inside + p.count) = e.outside + e.count :=
    Nat.min_eq_left hhi
  simp only [Extent.meet, Extent.through, hmax, hmin]
  rw [if_pos (by omega)]
  simp

theorem Extent.meet_of_disjoint {q : Extent} (h : e.Fits p) (hd : p.Disjoint q) :
    e.meet q = none := by
  obtain ⟨hlo, hhi⟩ := h
  unfold Extent.meet
  refine if_neg ?_
  rcases hd.inside with hd | hd <;> omega

/-- An extent that fits into one of a disjoint table meets that one only. -/
theorem filterMap_meet (h : next.Pairwise Extent.Disjoint) (hp : p ∈ next) (hfits : e.Fits p)
    (hcount : 0 < e.count) : next.filterMap e.meet = [e.through p] := by
  induction next with
  | nil => cases hp
  | cons q rest ih =>
    rw [List.pairwise_cons] at h
    rcases List.mem_cons.mp hp with rfl | hp
    · have hnone : rest.filterMap e.meet = [] := List.filterMap_eq_nil_iff.mpr fun q hq =>
        Extent.meet_of_disjoint hfits (h.1 q hq)
      rw [List.filterMap_cons, Extent.meet_of_fits hfits hcount, hnone]
    · rw [List.filterMap_cons, Extent.meet_of_disjoint hfits (h.1 p hp).symm, ih h.2 hp]

/-- Each extent of the one table fits into one of the other. -/
def FitsInto (table next : List Extent) : Prop := ∀ e ∈ table, ∃ p ∈ next, e.Fits p

theorem compose_of_fits (hnext : next.Pairwise Extent.Disjoint)
    (htable : table.Pairwise Extent.Disjoint) (hcount : ∀ e ∈ table, 0 < e.count)
    (hfits : FitsInto table next) :
    (compose table next).length = table.length ∧
      (∀ f ∈ compose table next, ∃ e ∈ table, ∃ p ∈ next, e.Fits p ∧ f = e.through p) ∧
      (compose table next).Pairwise Extent.Disjoint := by
  induction table with
  | nil => exact ⟨rfl, nofun, .nil⟩
  | cons e rest ih =>
    rw [List.pairwise_cons] at htable
    obtain ⟨hlength, hform, hpairwise⟩ := ih htable.2
      (fun f hf => hcount f (List.mem_cons_of_mem _ hf))
      (fun f hf => hfits f (List.mem_cons_of_mem _ hf))
    obtain ⟨p, hp, hfit⟩ := hfits e List.mem_cons_self
    have hhead : compose (e :: rest) next = e.through p :: compose rest next := by
      rw [compose, List.flatMap_cons, filterMap_meet hnext hp hfit (hcount e List.mem_cons_self)]
      rfl
    rw [hhead]
    refine ⟨by simp [hlength], fun f hf => ?_, List.pairwise_cons.mpr ⟨fun f hf => ?_, hpairwise⟩⟩
    · rcases List.mem_cons.mp hf with rfl | hf
      · exact ⟨e, List.mem_cons_self, p, hp, hfit, rfl⟩
      · obtain ⟨e', he', hrest⟩ := hform f hf
        exact ⟨e', List.mem_cons_of_mem _ he', hrest⟩
    · obtain ⟨e', he', p', hp', hfit', rfl⟩ := hform f hf
      have hd := htable.1 e' he'
      refine ⟨hd.inside, ?_⟩
      obtain ⟨hlo, hhi⟩ := hfit
      obtain ⟨hlo', hhi'⟩ := hfit'
      simp only [Extent.through]
      rcases eq_or_disjoint hnext hp hp' with rfl | hdp
      · rcases hd.outside with hd | hd <;> omega
      · rcases hdp.outside with hdp | hdp <;> omega

end Kinakaze.Library
