import Kinakaze.Manager.Coherence

/-!
# The copy loop of a fork

`copyStates` walks the parent's state table and gives the child an object of its
own for every state that is not shared.  `Copying` is the loop invariant: what
is still to do is as the parent has it, what is done is as `Copied` says.
-/

namespace Kinakaze.Manager

open Kinakaze.Library Kinakaze.Protocol

/-- The copy of `states` with the entries of `todo` still to visit. -/
structure Copying (objects : Table Object) (next : Nat) (states : StateTable)
    (todo : List (StateKey × Nat)) (objects' : Table Object) (next' : Nat)
    (states' : StateTable) : Prop where
  le : next ≤ next'
  below : ForAll objects fun id _ => id < next
  old : ∀ {id : Nat}, id < next → objects'[id]? = objects[id]?
  new : ∀ {id : Nat}, next ≤ id → id < next' → ∃ key : StateKey, states'[key]? = some id
  bound : ∀ {id : Nat} {o : Object}, objects'[id]? = some o → id < next'
  mapped : ∀ {key : StateKey} {id : Nat}, states'[key]? = some id → id < next'
  distinctTodo : (todo.map Prod.fst).Nodup
  untouched : ∀ {key : StateKey} {id : Nat}, (key, id) ∈ todo →
    states[key]? = some id ∧ states'[key]? = some id
  shared : ∀ {key : StateKey} {id : Nat} {o : Object}, states[key]? = some id →
    objects[id]? = some o → o.fork = .share → states'[key]? = some id
  forked : ∀ {key : StateKey} {id : Nat} {o o' : Object}, key ∉ todo.map Prod.fst →
    states[key]? = some id → objects[id]? = some o → o.forked = some o' →
    ∃ id' : Nat, next ≤ id' ∧ states'[key]? = some id' ∧ objects'[id']? = some o'
  defined : ∀ {key : StateKey} {id : Nat}, states'[key]? = some id →
    ∃ (id₀ : Nat) (o : Object), states[key]? = some id₀ ∧ objects[id₀]? = some o ∧
      (o.fork = .share → id = id₀)
  distinct : ∀ {key key' : StateKey} {id : Nat}, states'[key]? = some id →
    states'[key']? = some id → next ≤ id → key = key'

variable {objects objects' : Table Object} {next next' : Nat} {states states' : StateTable}
  {todo : List (StateKey × Nat)}

theorem Copying.start (hdefined : ∀ {key : StateKey} {id : Nat}, states[key]? = some id →
      ∃ o : Object, objects[id]? = some o) (hbelow : ForAll objects fun id _ => id < next) :
    Copying objects next states states.toList objects next states where
  le := Nat.le_refl _
  below := hbelow
  old _ := rfl
  new hle hlt := absurd hlt (Nat.not_lt.mpr hle)
  bound ho := hbelow _ _ ho
  mapped hkey := by
    obtain ⟨o, ho⟩ := hdefined hkey
    exact hbelow _ o ho
  distinctTodo := by
    rw [Std.ExtTreeMap.map_fst_toList_eq_keys]
    exact Std.ExtTreeMap.nodup_keys
  untouched hmem := by
    have hkey := Std.ExtTreeMap.mem_toList_iff_getElem?_eq_some.mp hmem
    exact ⟨hkey, hkey⟩
  shared hkey _ _ := hkey
  forked := by
    intro key id o o' hkey hstate
    refine absurd (List.mem_map.mpr ⟨(key, id), ?_, rfl⟩) hkey
    exact Std.ExtTreeMap.mem_toList_iff_getElem?_eq_some.mpr hstate
  defined hkey := by
    obtain ⟨o, ho⟩ := hdefined hkey
    exact ⟨_, o, hkey, ho, fun _ => rfl⟩
  distinct hkey _ hle := by
    obtain ⟨o, ho⟩ := hdefined hkey
    exact absurd (hbelow _ _ ho) (Nat.not_lt.mpr hle)

theorem Copying.finish (h : Copying objects next states [] objects' next' states') :
    Copied objects next states objects' next' states' :=
  { h with forked := h.forked (by simp) }

theorem Copying.share {key : StateKey} {id : Nat} {o : Object}
    (h : Copying objects next states ((key, id) :: todo) objects' next' states')
    (ho : objects[id]? = some o) (hshare : o.forked = none) :
    Copying objects next states todo objects' next' states' :=
  { h with
    distinctTodo := (List.nodup_cons.mp h.distinctTodo).2
    untouched := fun hmem => h.untouched (List.mem_cons_of_mem _ hmem)
    forked := by
      intro k i o₁ o' hk hstate ho₁ hforked
      by_cases hkey : k = key
      · subst hkey
        obtain ⟨hstate', -⟩ := h.untouched List.mem_cons_self
        rw [hstate'] at hstate
        cases hstate
        rw [ho] at ho₁
        cases ho₁
        rw [hshare] at hforked
        cases hforked
      · exact h.forked (by simp only [List.map_cons, List.mem_cons, hkey, hk, or_self,
          not_false_eq_true]) hstate ho₁ hforked }

theorem Copying.fork {key : StateKey} {id : Nat} {o o' : Object}
    (h : Copying objects next states ((key, id) :: todo) objects' next' states')
    (ho : objects[id]? = some o) (hforked : o.forked = some o') :
    Copying objects next states todo (objects'.insert next' o') (next' + 1)
      (states'.insert key next') := by
  obtain ⟨hkey, hkey'⟩ := h.untouched List.mem_cons_self
  obtain ⟨hnot, hnodup⟩ := List.nodup_cons.mp h.distinctTodo
  have hfork : o.fork ≠ .share := by
    intro hshare
    simp [Object.forked, hshare] at hforked
  have hobject : ∀ i : Nat, (objects'.insert next' o')[i]? =
      if next' = i then some o' else objects'[i]? := fun i => get_insert _ _ _ _
  have hstate : ∀ k : StateKey, (states'.insert key next')[k]? =
      if key = k then some next' else states'[k]? := fun k => get_insert _ _ _ _
  have hle := h.le
  have hid := h.below id o ho
  refine ⟨by omega, h.below, ?old, ?new, ?bound, ?mapped, hnodup, ?untouched, ?shared, ?forked,
    ?defined, ?distinct⟩
  case old =>
    intro i hi
    rw [hobject, if_neg (by omega)]
    exact h.old hi
  case new =>
    intro i hi hlt
    by_cases hlast : i = next'
    · exact ⟨key, by rw [hstate, if_pos rfl, hlast]⟩
    obtain ⟨k, hk⟩ := h.new hi (by omega)
    refine ⟨k, ?_⟩
    rw [hstate, if_neg]
    · exact hk
    rintro rfl
    rw [hkey'] at hk
    cases hk
    omega
  case bound =>
    intro i o₁ ho₁
    rw [hobject] at ho₁
    split at ho₁
    · omega
    · have := h.bound ho₁
      omega
  case mapped =>
    intro k i hk
    rw [hstate] at hk
    split at hk
    · cases hk
      omega
    · have := h.mapped hk
      omega
  case untouched =>
    intro k i hmem
    obtain ⟨hk, hk'⟩ := h.untouched (List.mem_cons_of_mem _ hmem)
    refine ⟨hk, ?_⟩
    rw [hstate, if_neg]
    · exact hk'
    · rintro rfl
      exact hnot (List.mem_map.mpr ⟨_, hmem, rfl⟩)
  case shared =>
    intro k i o₁ hk ho₁ hshare
    rw [hstate, if_neg]
    · exact h.shared hk ho₁ hshare
    rintro rfl
    rw [hkey] at hk
    cases hk
    rw [ho] at ho₁
    cases ho₁
    exact hfork hshare
  case forked =>
    intro k i o₁ o₂ hk hstate₁ ho₁ hforked₁
    by_cases hkk : key = k
    · subst hkk
      rw [hkey] at hstate₁
      cases hstate₁
      rw [ho] at ho₁
      cases ho₁
      rw [hforked] at hforked₁
      cases hforked₁
      exact ⟨next', h.le, by rw [hstate, if_pos rfl], by rw [hobject, if_pos rfl]⟩
    · have hk' : k ∉ ((key, id) :: todo).map Prod.fst := by
        simpa [Ne.symm hkk] using hk
      obtain ⟨i', hi', hstate', hobject'⟩ := h.forked hk' hstate₁ ho₁ hforked₁
      have hlt := h.mapped hstate'
      exact ⟨i', hi', by rw [hstate, if_neg hkk, hstate'],
        by rw [hobject, if_neg (by omega), hobject']⟩
  case defined =>
    intro k i hk
    rw [hstate] at hk
    split at hk
    · next hkk =>
      subst hkk
      exact ⟨id, o, hkey, ho, fun hshare => absurd hshare hfork⟩
    · exact h.defined hk
  case distinct =>
    intro k k' i hk hk' hi
    rw [hstate] at hk hk'
    split at hk <;> split at hk'
    · next hkk hkk' => exact hkk.symm.trans hkk'
    · cases hk
      exact absurd (h.mapped hk') (Nat.lt_irrefl _)
    · cases hk'
      exact absurd (h.mapped hk) (Nat.lt_irrefl _)
    · exact h.distinct hk hk' hi

/-- The entries of a state table that get an object of their own. -/
def forkedCount (objects : Table Object) (todo : List (StateKey × Nat)) : Nat :=
  todo.countP fun entry => match objects[entry.2]? with
    | some o => o.fork != .share
    | none => false

theorem copyStates_spec (hdefined : ∀ {key : StateKey} {id : Nat}, states[key]? = some id →
      ∃ o : Object, objects[id]? = some o) {m : StateManager}
    (h : Copying objects next states todo m.objects m.nextObject states') :
    wp (copyStates todo states')
      (fun result m' => m' = { m with objects := m'.objects, nextObject := m'.nextObject } ∧
        Copied objects next states m'.objects m'.nextObject result ∧
        m'.objects.size ≤ m.objects.size + forkedCount objects todo)
      (fun _ _ => False) m := by
  induction todo generalizing m states' with
  | nil => exact ⟨rfl, h.finish, Nat.le_add_right _ _⟩
  | cons entry todo ih =>
    obtain ⟨key, id⟩ := entry
    obtain ⟨hkey, -⟩ := h.untouched List.mem_cons_self
    obtain ⟨o, ho⟩ := hdefined hkey
    have hread : m.objects[id]? = some o := (h.old (h.below id o ho)).trans ho
    have hcount : forkedCount objects ((key, id) :: todo) =
        forkedCount objects todo + if o.forked.isSome then 1 else 0 := by
      unfold forkedCount
      rw [List.countP_cons]
      simp only [ho]
      cases hfork : o.fork <;> simp [Object.forked, hfork]
    unfold copyStates
    simp only [wp_bind, wp_get, unwrap, wp_require, hread, Option.some.injEq, forall_eq',
      reduceCtorEq, false_imp_iff, true_and]
    cases hforked : o.forked with
    | none =>
      refine wp_mono (ih (h.share ho hforked)) (fun _ _ hdone => ?_) fun _ _ hf => hf
      obtain ⟨hframe, hcopied, hsize⟩ := hdone
      refine ⟨hframe, hcopied, ?_⟩
      rw [hcount]
      omega
    | some o' =>
      simp only [wp_bind, wp_set]
      refine wp_mono (ih (m := m.insertObject o') (h.fork ho hforked)) (fun _ _ hdone => ?_)
        fun _ _ hf => hf
      obtain ⟨hframe, hcopied, hsize⟩ := hdone
      refine ⟨hframe, hcopied, ?_⟩
      have hinsert : (m.insertObject o').objects.size ≤ m.objects.size + 1 :=
        Std.ExtTreeMap.size_insert_le
      simp only [hcount, hforked, Option.isSome_some, if_true]
      omega

end Kinakaze.Manager
