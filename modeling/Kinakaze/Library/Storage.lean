import Mathlib.Data.List.Sublists

/-!
# Storage that a crash may set back

A change is visible at once, and durable after the next flush. A crash keeps any of the changes
that were not flushed, in their order.

* `Storage.All`: what holds whatever a crash keeps.
* `All.add`, `All.flush` and `All.crash`: how it is kept.
-/

namespace Kinakaze.Library

variable {δ κ : Type} (apply : δ → κ → δ)

/-- What is durable, and the changes since the last flush. -/
structure Storage (δ κ : Type) where
  durable : δ
  pending : List κ := []

namespace Storage

/-- What is seen as long as there is no crash. -/
def visible (s : Storage δ κ) : δ := s.pending.foldl apply s.durable

def add (s : Storage δ κ) (c : κ) : Storage δ κ := { s with pending := s.pending ++ [c] }

def addAll (s : Storage δ κ) (cs : List κ) : Storage δ κ := { s with pending := s.pending ++ cs }

def flush (s : Storage δ κ) : Storage δ κ := ⟨s.visible apply, []⟩

/-- A crash that keeps the changes that are marked. -/
def crash (s : Storage δ κ) (kept : List Bool) : Storage δ κ :=
  ⟨((s.pending.zip kept).filter Prod.snd |>.map Prod.fst).foldl apply s.durable, []⟩

/-- `P` holds of what is there after a crash now, whatever it keeps. -/
def All (P : δ → Prop) (s : Storage δ κ) : Prop :=
  ∀ kept : List κ, kept.Sublist s.pending → P (kept.foldl apply s.durable)

variable {apply} {s : Storage δ κ} {P Q : δ → Prop}

@[simp] theorem visible_flush : (s.flush apply).visible apply = s.visible apply := rfl

@[simp] theorem visible_add (c : κ) : (s.add c).visible apply = apply (s.visible apply) c := by
  rw [visible, visible, add, List.foldl_append]
  rfl

theorem visible_addAll (cs : List κ) :
    (s.addAll cs).visible apply = cs.foldl apply (s.visible apply) := by
  rw [visible, visible, addAll, List.foldl_append]

theorem All.visible (h : s.All apply P) : P (s.visible apply) := h _ (.refl _)

theorem All.mono (h : s.All apply P) (himp : ∀ d, P d → Q d) : s.All apply Q :=
  fun kept hkept => himp _ (h kept hkept)

theorem All.and (h : s.All apply P) (h' : s.All apply Q) : s.All apply fun d => P d ∧ Q d :=
  fun kept hkept => ⟨h kept hkept, h' kept hkept⟩

theorem All.of_nil (hnil : s.pending = []) (h : P (s.visible apply)) : s.All apply P := by
  intro kept hkept
  rw [hnil] at hkept
  obtain rfl : kept = [] := List.sublist_nil.mp hkept
  rw [Storage.visible, hnil] at h
  exact h

theorem All.flush (h : P (s.visible apply)) : (s.flush apply).All apply P := by
  intro kept hkept
  obtain rfl : kept = [] := List.sublist_nil.mp hkept
  exact h

theorem All.add {c : κ} (h : s.All apply P) (hnext : s.All apply fun d => P (apply d c)) :
    (s.add c).All apply P := by
  intro kept hkept
  obtain ⟨before, last, rfl, hbefore, hlast⟩ := List.sublist_append_iff.mp hkept
  rcases List.sublist_singleton.mp hlast with rfl | rfl
  · rw [List.append_nil]
    exact h before hbefore
  · rw [List.foldl_append]
    exact hnext before hbefore

/-- Changes that keep a property are made one after the other. -/
theorem All.addAll {cs : List κ} (h : s.All apply P) (hkeeps : ∀ d, ∀ c ∈ cs, P d → P (apply d c)) :
    (s.addAll cs).All apply P := by
  induction cs generalizing s with
  | nil =>
    rw [Storage.addAll, List.append_nil]
    exact h
  | cons c rest ih =>
    have hfirst : (s.add c).All apply P :=
      h.add (h.mono fun d hd => hkeeps d c List.mem_cons_self hd)
    have hrest := ih hfirst fun d c' hc' => hkeeps d c' (List.mem_cons_of_mem _ hc')
    rw [Storage.addAll, Storage.add, List.append_assoc] at hrest
    exact hrest

theorem sublist_kept (pending : List κ) (kept : List Bool) :
    (((pending.zip kept).filter Prod.snd).map Prod.fst).Sublist pending := by
  induction pending generalizing kept with
  | nil => exact .refl _
  | cons c rest ih =>
    cases kept with
    | nil => exact List.nil_sublist _
    | cons keep kept =>
      cases keep with
      | true => exact (ih kept).cons_cons c
      | false => exact (ih kept).cons c

theorem All.crash (h : s.All apply P) (kept : List Bool) : (s.crash apply kept).All apply P := by
  intro kept' hkept'
  obtain rfl : kept' = [] := List.sublist_nil.mp hkept'
  exact h _ (sublist_kept s.pending kept)

end Storage

end Kinakaze.Library
