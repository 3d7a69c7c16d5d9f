import Mathlib.Algebra.Ring.Nat
import Mathlib.Algebra.Ring.Int.Defs
import Mathlib.Data.List.Nodup
import Mathlib.Data.List.Perm.Subperm

/-!
# Ordered tables

`Std.ExtTreeMap` is the extensional ordered map: two tables with the same
entries are equal, and every traversal visits the keys in increasing order.
This module adds the vocabulary of code that walks a table, and one equation
for each of the operations it uses.

* `Table β` is a table keyed by numbers.
* `anyValue`, `findEntry`, `countIf` and `selectKeys` are the traversals
  "does a value satisfy `p`", "the first entry that does", "how many do" and
  "the keys of those that do".
* `get_insert`, `get_erase`, `get_modify`, `get_filter`, `get_map` read one key
  of an updated table, as an `if` on the keys.
* `countIf_insert`, `countIf_erase` are the bookkeeping of a counter that must
  follow the table.
-/

namespace Kinakaze.Library

open Std

/-- A table keyed by numbers. -/
abbrev Table (β : Type) := ExtTreeMap Nat β compare

section Tables

variable {κ β : Type} {cmp : κ → κ → Ordering} [TransCmp cmp] [LawfulEqCmp cmp]

/-! ## Reading an updated table -/

section Reading

variable [DecidableEq κ] (t : ExtTreeMap κ β cmp) (k a : κ)

theorem get_insert (v : β) : (t.insert k v)[a]? = if k = a then some v else t[a]? := by
  simp [ExtTreeMap.getElem?_insert]

theorem get_erase : (t.erase k)[a]? = if k = a then none else t[a]? := by
  simp [ExtTreeMap.getElem?_erase]

theorem get_modify (f : β → β) : (t.modify k f)[a]? = if k = a then t[a]?.map f else t[a]? := by
  simp only [ExtTreeMap.getElem?_modify, LawfulEqCmp.compare_eq_iff_eq]
  split
  · next h => rw [h]
  · rfl

end Reading

theorem get_filter (t : ExtTreeMap κ β cmp) (k : κ) (f : κ → β → Bool) :
    (t.filter f)[k]? = t[k]?.filter (f k) := by
  simp

theorem get_map (t : ExtTreeMap κ β cmp) (k : κ) (f : κ → β → β) :
    (t.map f)[k]? = t[k]?.map (f k) := by
  simp

variable {t : ExtTreeMap κ β cmp} {k : κ} {v : β} {f : κ → β → Bool}

theorem get_filter_eq_some :
    (t.filter f)[k]? = some v ↔ t[k]? = some v ∧ f k v = true := by
  rw [get_filter, Option.filter_eq_some_iff]

theorem modify_eq_insert (f : β → β) (hk : t[k]? = some v) : t.modify k f = t.insert k (f v) := by
  classical
  refine ExtTreeMap.ext_getElem? fun a => ?_
  rw [get_modify, get_insert]
  split
  · next h => rw [← h, hk, Option.map_some]
  · rfl

/-- Reading a table in which the value of a present key was replaced. -/
theorem get_modify_of [DecidableEq κ] (f : β → β) (hk : t[k]? = some v) (a : κ) :
    (t.modify k f)[a]? = if k = a then some (f v) else t[a]? := by
  rw [modify_eq_insert f hk, get_insert]

theorem modify_eq_self (f : β → β) (hk : ∀ v : β, t[k]? = some v → f v = v) : t.modify k f = t := by
  classical
  refine ExtTreeMap.ext_getElem? fun a => ?_
  rw [get_modify]
  split
  · next h =>
    subst h
    cases hv : t[k]? with
    | none => rfl
    | some v => rw [Option.map_some, hk v hv]
  · rfl

/-- An idempotent update at each of a list of keys. -/
theorem get_foldl_modify [DecidableEq κ] {f : β → β} (hf : ∀ v : β, f (f v) = f v)
    (l : List κ) (t : ExtTreeMap κ β cmp) (a : κ) :
    (l.foldl (fun t k => t.modify k f) t)[a]? = if a ∈ l then t[a]?.map f else t[a]? := by
  induction l generalizing t with
  | nil => rfl
  | cons k l ih =>
    rw [List.foldl_cons, ih, get_modify]
    by_cases hk : k = a
    · subst hk
      have hidem : (t[k]?.map f).map f = t[k]?.map f := by
        cases t[k]? with
        | none => rfl
        | some v => exact congrArg some (hf v)
      simp [hidem]
    · simp [hk, Ne.symm hk]

theorem insert_eq_self (hk : t[k]? = some v) : t.insert k v = t := by
  classical
  refine ExtTreeMap.ext_getElem? fun a => ?_
  rw [get_insert]
  split
  · next h => rw [← h, hk]
  · rfl

theorem erase_eq_self (hk : t[k]? = none) : t.erase k = t := by
  classical
  refine ExtTreeMap.ext_getElem? fun a => ?_
  rw [get_erase]
  split
  · next h => rw [← h, hk]
  · rfl

/-- An entry that was erased is put back. -/
theorem insert_erase_self (hk : t[k]? = some v) : (t.erase k).insert k v = t := by
  classical
  refine ExtTreeMap.ext_getElem? fun a => ?_
  rw [get_insert, get_erase]
  split
  · next h => rw [← h, hk]
  · rfl

theorem filter_eq_self
    (hf : ∀ (k : κ) (v : β), t[k]? = some v → f k v = true) : t.filter f = t := by
  refine ExtTreeMap.ext_getElem? fun a => ?_
  rw [get_filter]
  cases ha : t[a]? with
  | none => rfl
  | some v => rw [Option.filter_some, hf a v ha, if_pos rfl]

/-! ## One field of the values -/

section Columns

variable {γ : Type}

/-- One field of the values of a table, by key. -/
def column (t : ExtTreeMap κ β cmp) (f : β → γ) (k : κ) : Option γ := t[k]?.map f

variable {t : ExtTreeMap κ β cmp} {f : β → γ} {k : κ}

omit [LawfulEqCmp cmp] in
theorem column_eq_some {c : γ} :
    column t f k = some c ↔ ∃ v, t[k]? = some v ∧ f v = c := by
  simp [column]

omit [LawfulEqCmp cmp] in
theorem column_eq_none :
    column t f k = none ↔ t[k]? = none := by
  simp [column]

omit [LawfulEqCmp cmp] in
theorem column_of_get (f : β → γ) (h : t[k]? = some v) : column t f k = some (f v) := by
  rw [column, h, Option.map_some]

theorem column_insert [DecidableEq κ] (t : ExtTreeMap κ β cmp) (f : β → γ) (k a : κ) (v : β) :
    column (t.insert k v) f a = if k = a then some (f v) else column t f a := by
  rw [column, get_insert]
  split <;> rfl

theorem column_erase [DecidableEq κ] (t : ExtTreeMap κ β cmp) (f : β → γ) (k a : κ) :
    column (t.erase k) f a = if k = a then none else column t f a := by
  rw [column, get_erase]
  split <;> rfl

theorem column_modify [DecidableEq κ] (t : ExtTreeMap κ β cmp) (f : β → γ) (g : β → β) (k a : κ) :
    column (t.modify k g) f a = if k = a then column t (fun v => f (g v)) a else column t f a := by
  rw [column, get_modify]
  split
  · rw [Option.map_map]
    rfl
  · rfl

/-- Updates that leave a field alone leave its column alone. -/
theorem column_modify_eq (t : ExtTreeMap κ β cmp) {g : β → β} (k : κ)
    (h : ∀ v, f (g v) = f v) : column (t.modify k g) f = column t f := by
  classical
  funext a
  rw [column_modify]
  split
  · exact congrArg (fun φ => column t φ a) (funext h)
  · rfl

theorem column_map_eq (t : ExtTreeMap κ β cmp) {g : κ → β → β}
    (h : ∀ k v, f (g k v) = f v) : column (t.map g) f = column t f := by
  funext a
  simp only [column, get_map, Option.map_map]
  exact congrArg (fun φ => Option.map φ t[a]?) (funext (h a))

end Columns

/-! ## Properties of all entries -/

section ForAll

/-- Every entry of the table satisfies `P`. -/
def ForAll (t : ExtTreeMap κ β cmp) (P : κ → β → Prop) : Prop :=
  ∀ (k : κ) (v : β), t[k]? = some v → P k v

variable {t : ExtTreeMap κ β cmp} {P Q : κ → β → Prop}

omit [LawfulEqCmp cmp] in
theorem ForAll.mono (h : ForAll t P) (himp : ∀ (k : κ) (v : β), P k v → Q k v) : ForAll t Q :=
  fun k v hk => himp k v (h k v hk)

omit [LawfulEqCmp cmp] in
theorem ForAll.empty : ForAll (∅ : ExtTreeMap κ β cmp) P := by
  intro k v hk
  simp at hk

theorem ForAll.insert (h : ForAll t P) (hv : P k v) : ForAll (t.insert k v) P := by
  classical
  intro a w ha
  rw [get_insert] at ha
  split at ha
  · next hka => rw [← hka, ← Option.some.inj ha]; exact hv
  · exact h a w ha

theorem ForAll.erase (h : ForAll t P) (k : κ) : ForAll (t.erase k) P := by
  classical
  intro a w ha
  rw [get_erase] at ha
  split at ha
  · cases ha
  · exact h a w ha

/-- Where the new value needs only what the old one satisfied. -/
theorem ForAll.modify (h : ForAll t P) {f : β → β}
    (hf : ∀ v : β, t[k]? = some v → P k v → P k (f v)) : ForAll (t.modify k f) P := by
  classical
  intro a w ha
  rw [get_modify] at ha
  split at ha
  · next hka =>
    subst hka
    obtain ⟨v, hv, rfl⟩ := Option.map_eq_some_iff.mp ha
    exact hf v hv (h k v hv)
  · exact h a w ha

theorem ForAll.filter (h : ForAll t P) (f : κ → β → Bool) : ForAll (t.filter f) P :=
  fun a w ha => h a w (get_filter_eq_some.mp ha).1

theorem ForAll.map (h : ForAll t P) {f : κ → β → β}
    (hf : ∀ (k : κ) (v : β), P k v → P k (f k v)) : ForAll (t.map f) P := by
  intro a w ha
  rw [get_map] at ha
  obtain ⟨v, hv, rfl⟩ := Option.map_eq_some_iff.mp ha
  exact hf a v (h a v hv)

end ForAll

/-! ## Traversals -/

/-- Whether some value of the table satisfies `p`. -/
def anyValue (t : ExtTreeMap κ β cmp) (p : β → Bool) : Bool :=
  t.toList.any fun entry => p entry.2

/-- The first entry, in key order, whose value satisfies `p`. -/
def findEntry (t : ExtTreeMap κ β cmp) (p : β → Bool) : Option (κ × β) :=
  t.toList.find? fun entry => p entry.2

/-- How many values of the table satisfy `p`. -/
def countIf (t : ExtTreeMap κ β cmp) (p : β → Bool) : Nat :=
  t.toList.countP fun entry => p entry.2

/-- The keys, in order, of the values that satisfy `p`. -/
def selectKeys (t : ExtTreeMap κ β cmp) (p : β → Bool) : List κ :=
  (t.toList.filter fun entry => p entry.2).map Prod.fst

/-- The values of the table, in the order of their keys. -/
def valuesOf (t : ExtTreeMap κ β cmp) : List β := t.toList.map Prod.snd

theorem mem_valuesOf :
    v ∈ valuesOf t ↔ ∃ k : κ, t[k]? = some v := by
  simp only [valuesOf, List.mem_map, Prod.exists, exists_eq_right,
    ExtTreeMap.mem_toList_iff_getElem?_eq_some]

variable {p : β → Bool}

@[simp] theorem anyValue_eq_true :
    anyValue t p = true ↔ ∃ (k : κ) (v : β), t[k]? = some v ∧ p v = true := by
  simp only [anyValue, List.any_eq_true, Prod.exists, ExtTreeMap.mem_toList_iff_getElem?_eq_some]

theorem anyValue_eq_false :
    anyValue t p = false ↔ ∀ (k : κ) (v : β), t[k]? = some v → p v = false := by
  rw [← Bool.not_eq_true, anyValue_eq_true]
  simp only [not_exists, not_and, Bool.not_eq_true]

theorem findEntry_some (h : findEntry t p = some (k, v)) : t[k]? = some v ∧ p v = true :=
  ⟨ExtTreeMap.mem_toList_iff_getElem?_eq_some.mp (List.mem_of_find?_eq_some h),
    by simpa using List.find?_some h⟩

theorem findEntry_none :
    findEntry t p = none ↔ ∀ (k : κ) (v : β), t[k]? = some v → p v = false := by
  simp only [findEntry, List.find?_eq_none, Prod.forall,
    ExtTreeMap.mem_toList_iff_getElem?_eq_some, Bool.not_eq_true]

/-- When only one value can satisfy `p`, the search returns its entry. -/
theorem findEntry_eq_of_unique (hk : t[k]? = some v) (hp : p v = true)
    (hunique : ∀ (a : κ) (w : β), t[a]? = some w → p w = true → a = k) :
    findEntry t p = some (k, v) := by
  cases hfound : findEntry t p with
  | none => simp [findEntry_none.mp hfound k v hk] at hp
  | some entry =>
    obtain ⟨a, w⟩ := entry
    obtain ⟨ha, hw⟩ := findEntry_some hfound
    obtain rfl := hunique a w ha hw
    rw [hk] at ha
    rw [Option.some.inj ha]

theorem mem_selectKeys :
    k ∈ selectKeys t p ↔ ∃ v, t[k]? = some v ∧ p v = true := by
  simp only [selectKeys, List.mem_map, List.mem_filter, Prod.exists,
    exists_and_right, exists_eq_right, ExtTreeMap.mem_toList_iff_getElem?_eq_some]

omit [LawfulEqCmp cmp] in
theorem nodup_keys_toList (t : ExtTreeMap κ β cmp) : (t.toList.map Prod.fst).Nodup := by
  rw [ExtTreeMap.map_fst_toList_eq_keys]
  exact ExtTreeMap.nodup_keys

omit [LawfulEqCmp cmp] in
theorem nodup_selectKeys (t : ExtTreeMap κ β cmp) (p : β → Bool) : (selectKeys t p).Nodup := by
  have hsub : (t.toList.filter fun entry => p entry.2).Sublist t.toList :=
    List.filter_sublist
  exact (nodup_keys_toList t).sublist (hsub.map Prod.fst)

theorem selectKeys_eq_nil
    (h : ∀ (k : κ) (v : β), t[k]? = some v → p v = false) : selectKeys t p = [] := by
  rw [List.eq_nil_iff_forall_not_mem]
  intro k hk
  obtain ⟨v, hv, hp⟩ := mem_selectKeys.mp hk
  simp [h k v hv] at hp

/-- When only one value can satisfy `p`, its key is the whole selection. -/
theorem selectKeys_eq_singleton (hk : t[k]? = some v) (hp : p v = true)
    (hunique : ∀ (a : κ) (w : β), t[a]? = some w → p w = true → a = k) : selectKeys t p = [k] := by
  have hmem : k ∈ selectKeys t p := mem_selectKeys.mpr ⟨v, hk, hp⟩
  refine List.perm_singleton.mp ?_
  rw [List.perm_ext_iff_of_nodup (nodup_selectKeys t p) (List.nodup_singleton k)]
  intro a
  rw [List.mem_singleton]
  constructor
  · intro ha
    obtain ⟨w, hw, hpw⟩ := mem_selectKeys.mp ha
    exact hunique a w hw hpw
  · rintro rfl
    exact hmem

/-! ## Counting -/

omit [LawfulEqCmp cmp] in
theorem size_insert_of_not_mem (v : β) (hk : k ∉ t) : (t.insert k v).size = t.size + 1 := by
  simp [ExtTreeMap.size_insert, hk]

omit [LawfulEqCmp cmp] in
theorem countIf_eq_size (t : ExtTreeMap κ β cmp) (p : β → Bool) :
    countIf t p = (t.filter fun _ v => p v).size := by
  rw [countIf, ← ExtTreeMap.length_toList, ExtTreeMap.toList_filter, List.countP_eq_length_filter]

/-- Writing a new entry adds it to the count exactly when it satisfies `p`. -/
theorem countIf_insert_new (p : β → Bool) (v : β) (hk : t[k]? = none) :
    countIf (t.insert k v) p = countIf t p + if p v = true then 1 else 0 := by
  classical
  have hnot : k ∉ t.filter fun _ w => p w := by
    rw [ExtTreeMap.mem_iff_isSome_getElem?, get_filter, hk]
    simp
  have hfilter : (t.insert k v).filter (fun _ w => p w) =
      if p v = true then (t.filter fun _ w => p w).insert k v
      else t.filter fun _ w => p w := by
    refine ExtTreeMap.ext_getElem? fun a => ?_
    by_cases hp : p v = true <;> by_cases ha : k = a <;>
      simp only [get_filter, get_insert, hp, ha, if_true, if_false,
        Option.filter_some, Bool.false_eq_true]
    rw [← ha, hk, Option.filter_none]
  rw [countIf_eq_size, countIf_eq_size, hfilter]
  by_cases hp : p v = true
  · rw [if_pos hp, if_pos hp, size_insert_of_not_mem v hnot]
  · rw [if_neg hp, if_neg hp, Nat.add_zero]

/-- Dropping an entry removes it from the count exactly when it satisfied `p`. -/
theorem countIf_erase (p : β → Bool) (hk : t[k]? = some v) :
    countIf t p = countIf (t.erase k) p + if p v = true then 1 else 0 := by
  classical
  have hnone : (t.erase k)[k]? = none := by rw [get_erase, if_pos rfl]
  rw [← countIf_insert_new p v hnone, insert_erase_self hk]

theorem countIf_erase_le (t : ExtTreeMap κ β cmp) (p : β → Bool) (k : κ) :
    countIf (t.erase k) p ≤ countIf t p := by
  cases hk : t[k]? with
  | none => exact Nat.le_of_eq (congrArg (countIf · p) (erase_eq_self hk))
  | some v => have := countIf_erase p hk; omega

theorem modify_eq_erase_insert (f : β → β) (hk : t[k]? = some v) :
    t.modify k f = (t.erase k).insert k (f v) := by
  classical
  rw [modify_eq_insert f hk]
  refine ExtTreeMap.ext_getElem? fun a => ?_
  rw [get_insert, get_insert, get_erase]
  split <;> simp_all

/-- Replacing the value at a key moves the count by the two values alone. -/
theorem countIf_modify (p : β → Bool) (f : β → β) (hk : t[k]? = some v) :
    countIf (t.modify k f) p + (if p v = true then 1 else 0) =
      countIf t p + if p (f v) = true then 1 else 0 := by
  classical
  have hnone : (t.erase k)[k]? = none := by rw [get_erase, if_pos rfl]
  rw [modify_eq_erase_insert f hk, countIf_insert_new p (f v) hnone, countIf_erase p hk]
  omega

/-- The count of a smaller predicate over a table with fewer values. -/
theorem countIf_le_countIf {u : ExtTreeMap κ β cmp} {q : β → Bool}
    (h : ∀ (k : κ) (v : β), t[k]? = some v → p v = true → ∃ w : β, u[k]? = some w ∧ q w = true) :
    countIf t p ≤ countIf u q := by
  classical
  have hlen : ∀ (r : ExtTreeMap κ β cmp) (f : β → Bool), countIf r f = (selectKeys r f).length := by
    intro r f
    rw [countIf, selectKeys, List.length_map, List.countP_eq_length_filter]
  rw [hlen, hlen]
  refine (List.subperm_of_subset (nodup_selectKeys t p) ?_).length_le
  intro k hk
  obtain ⟨v, hv, hp⟩ := mem_selectKeys.mp hk
  exact mem_selectKeys.mpr (h k v hv hp)

/-- An update under which no value starts to satisfy `p`. -/
theorem countIf_modify_le {f : β → β} (k : κ)
    (h : ∀ v : β, t[k]? = some v → p (f v) = true → p v = true) :
    countIf (t.modify k f) p ≤ countIf t p := by
  classical
  refine countIf_le_countIf fun a w ha hp => ?_
  rw [get_modify] at ha
  split at ha
  · next hka =>
    subst hka
    obtain ⟨v, hv, rfl⟩ := Option.map_eq_some_iff.mp ha
    exact ⟨v, hv, h v hv hp⟩
  · exact ⟨w, ha, hp⟩

theorem countIf_map_le {f : κ → β → β} (h : ∀ (k : κ) (v : β), p (f k v) = true → p v = true) :
    countIf (t.map f) p ≤ countIf t p := by
  refine countIf_le_countIf fun a w ha hp => ?_
  rw [get_map] at ha
  obtain ⟨v, hv, rfl⟩ := Option.map_eq_some_iff.mp ha
  exact ⟨v, hv, h a v hp⟩

theorem countIf_filter_le (f : κ → β → Bool) : countIf (t.filter f) p ≤ countIf t p :=
  countIf_le_countIf fun _ w ha hp => ⟨w, (get_filter_eq_some.mp ha).1, hp⟩

omit [LawfulEqCmp cmp] in
theorem size_insert_new (v : β) (hk : t[k]? = none) : (t.insert k v).size = t.size + 1 := by
  have hnot : k ∉ t := by simpa using hk
  exact size_insert_of_not_mem v hnot

/-! ## Sums -/

/-- The sum of a weight over the values. -/
def total (t : ExtTreeMap κ β cmp) (weight : β → Nat) : Nat :=
  (t.toList.map fun entry => weight entry.2).sum

theorem total_insert_new (weight : β → Nat) (v : β)
    (hk : t[k]? = none) : total (t.insert k v) weight = total t weight + weight v := by
  classical
  have hnodup : ∀ u : ExtTreeMap κ β cmp, u.toList.Nodup := fun u =>
    (nodup_keys_toList u).of_map
  have hnew : (k, v) ∉ t.toList := by
    rw [ExtTreeMap.mem_toList_iff_getElem?_eq_some, hk]
    exact nofun
  have hperm : (t.insert k v).toList.Perm ((k, v) :: t.toList) := by
    rw [List.perm_ext_iff_of_nodup (hnodup _) (List.nodup_cons.mpr ⟨hnew, hnodup t⟩)]
    rintro ⟨a, w⟩
    rw [List.mem_cons, ExtTreeMap.mem_toList_iff_getElem?_eq_some, get_insert,
      ExtTreeMap.mem_toList_iff_getElem?_eq_some]
    by_cases ha : k = a
    · subst ha
      simp [hk, eq_comm]
    · simp [ha, Ne.symm ha]
  rw [total, (hperm.map _).sum_nat, List.map_cons, List.sum_cons, Nat.add_comm]
  rfl

/-- Replacing the value at a key moves the sum by the two weights alone. -/
theorem total_modify (weight : β → Nat) (f : β → β) (hk : t[k]? = some v) :
    total (t.modify k f) weight + weight v = total t weight + weight (f v) := by
  classical
  have hnone : (t.erase k)[k]? = none := by rw [get_erase, if_pos rfl]
  have hsum := total_insert_new weight v hnone
  rw [insert_erase_self hk] at hsum
  rw [modify_eq_erase_insert f hk, total_insert_new weight (f v) hnone, hsum]
  omega

omit [LawfulEqCmp cmp] in
theorem total_le_total (t : ExtTreeMap κ β cmp) {weight weight' : β → Nat}
    (h : ∀ v, weight v ≤ weight' v) : total t weight ≤ total t weight' := by
  unfold total
  induction t.toList with
  | nil => exact Nat.le_refl _
  | cons entry rest ih =>
    simp only [List.map_cons, List.sum_cons]
    exact Nat.add_le_add (h entry.2) ih

end Tables

end Kinakaze.Library
