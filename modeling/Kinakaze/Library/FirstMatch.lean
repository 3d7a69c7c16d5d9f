import Mathlib.Data.List.Basic

/-!
# Updating the first match of a list

`updateFirst p f l` is the list after `iter_mut().find(p)` and an update `f` of what it
found; it is `none` when nothing satisfies `p`.

* `updateFirst_eq_none`: when it fails.
* `updateFirst_split`: what it does when it succeeds.
-/

namespace Kinakaze.Library

variable {α : Type} {p : α → Bool} {f : α → α}

/-- Apply `f` to the first element that satisfies `p`. -/
def updateFirst (p : α → Bool) (f : α → α) : List α → Option (List α)
  | [] => none
  | a :: l => if p a then some (f a :: l) else (updateFirst p f l).map (a :: ·)

theorem updateFirst_eq_none {l : List α} : updateFirst p f l = none ↔ ∀ a ∈ l, p a = false := by
  induction l with
  | nil => simp [updateFirst]
  | cons a l ih =>
    by_cases ha : p a = true
    · simp [updateFirst, ha]
    · simp [updateFirst, ha, ih]

/-- The list around the element that is updated. -/
theorem updateFirst_split {l l' : List α} (h : updateFirst p f l = some l') :
    ∃ before a after, l = before ++ a :: after ∧ l' = before ++ f a :: after ∧
      p a = true ∧ ∀ b ∈ before, p b = false := by
  induction l generalizing l' with
  | nil => cases h
  | cons a l ih =>
    rw [updateFirst] at h
    split at h
    · next ha =>
      cases h
      exact ⟨[], a, l, rfl, rfl, ha, by simp⟩
    · next ha =>
      obtain ⟨rest, hrest, rfl⟩ := Option.map_eq_some_iff.mp h
      obtain ⟨before, b, after, rfl, rfl, hb, hbefore⟩ := ih hrest
      refine ⟨a :: before, b, after, rfl, rfl, hb, ?_⟩
      intro c hc
      cases hc with
      | head => simpa using ha
      | tail _ hc => exact hbefore c hc

theorem find?_split {before after : List α} {a : α} (ha : p a = true)
    (hbefore : ∀ b ∈ before, p b = false) : (before ++ a :: after).find? p = some a := by
  rw [List.find?_append, List.find?_eq_none.mpr fun b hb => by simp [hbefore b hb]]
  simp [ha]

theorem updateFirst_of_find? {l : List α} {a : α} (f : α → α) (h : l.find? p = some a) :
    ∃ before after, l = before ++ a :: after ∧ (∀ b ∈ before, p b = false) ∧
      updateFirst p f l = some (before ++ f a :: after) := by
  induction l with
  | nil => cases h
  | cons b l ih =>
    rw [List.find?_cons] at h
    split at h
    · next hb =>
      cases h
      exact ⟨[], l, rfl, by simp, by simp [updateFirst, hb]⟩
    · next hb =>
      obtain ⟨before, after, rfl, hbefore, hupdate⟩ := ih h
      refine ⟨b :: before, after, rfl, ?_, by simp [updateFirst, hb, hupdate]⟩
      intro c hc
      cases hc with
      | head => exact hb
      | tail _ hc => exact hbefore c hc

/-- An update among elements that `q` does not see. -/
theorem find?_update_ne {q : α → Bool} {l l' : List α} (h : updateFirst p f l = some l')
    (hbefore : ∀ a, p a = true → q a = false) (hafter : ∀ a, p a = true → q (f a) = false) :
    l'.find? q = l.find? q := by
  obtain ⟨before, a, after, rfl, rfl, ha, -⟩ := updateFirst_split h
  simp [List.find?_append, List.find?_cons, hbefore a ha, hafter a ha]

end Kinakaze.Library

/-!
## Values under keys

A list of pairs is searched by the first part. When no key occurs twice, a pair is found
exactly when it is there.
-/

namespace Kinakaze.Library

variable {κ α : Type} [BEq κ] [LawfulBEq κ]

theorem mem_of_lookup {l : List (κ × α)} {k : κ} {v : α}
    (h : l.lookup k = some v) : (k, v) ∈ l := by
  induction l with
  | nil => cases h
  | cons x rest ih =>
    obtain ⟨k', v'⟩ := x
    rw [List.lookup_cons] at h
    split at h
    · next heq =>
      cases h
      rw [beq_iff_eq.mp heq]
      exact List.mem_cons_self
    · exact List.mem_cons_of_mem _ (ih h)

theorem lookup_of_mem {l : List (κ × α)} (hnodup : (l.map Prod.fst).Nodup) {k : κ}
    {v : α} (h : (k, v) ∈ l) : l.lookup k = some v := by
  induction l with
  | nil => cases h
  | cons x rest ih =>
    obtain ⟨k', v'⟩ := x
    rw [List.map_cons, List.nodup_cons] at hnodup
    rw [List.lookup_cons]
    rcases List.mem_cons.mp h with heq | hin
    · cases heq
      rw [beq_self_eq_true]
    have hne : (k == k') = false := by
      refine beq_eq_false_iff_ne.mpr fun heq => hnodup.1 ?_
      exact List.mem_map.mpr ⟨(k, v), hin, heq⟩
    rw [hne]
    exact ih hnodup.2 hin

end Kinakaze.Library
