import Kinakaze.UserNamespace.Confined

/-!
# User namespaces: privilege, and the ids a process sees

* `capable_iff`: privilege reaches down the tree, never up or sideways.
* `ids_read_back`: the two ways of translating an id, and there and back.
-/

namespace Kinakaze.UserNamespace

open Library

variable {tree tree' : Tree} {id : Id} {c : Caller} {bit turns : Nat} {s : State}
  {line front rest : List State}

/-! ## The initial namespace -/

theorem Sound.act_root (h : Sound tree) {a : Action} (hact : tree.act a = .ok tree') :
    tree'.stores 1 = tree.stores 1 := by
  cases a with
  | prepareUnshare c =>
    obtain ⟨-, -, -, -, -, rfl⟩ := prepareUnshare_ok hact
    exact Function.update_of_ne (fun heq => by simpa [← heq] using h.counter) _ _
  | writeMap c target group bytes offset =>
    obtain ⟨-, -, -, -, htarget, -, -, -, -, -, rfl⟩ := writeMap_ok hact
    exact Function.update_of_ne htarget.symm _ _
  | groups c target value =>
    obtain ⟨-, -, -, htarget, rfl⟩ := groups_ok hact
    exact Function.update_of_ne htarget.symm _ _
  | newObject =>
    simp only [Tree.act, Tree.newObject] at hact
    split at hact <;> cases hact
    rfl

theorem reachable_root (h : Reachable Tree.step (· = Tree.initial) tree) :
    Sound tree ∧ tree.stateOf 1 = .ok .initial := by
  refine h.invariant Tree.step (P := fun tree => Sound tree ∧ tree.stateOf 1 = .ok .initial)
    ?_ fun tree a hsound => ⟨hsound.1.step a, ?_⟩
  · rintro _ rfl
    exact ⟨.initial, by decide +kernel⟩
  · unfold Tree.step
    cases hact : tree.act a with
    | error e => exact hsound.2
    | ok tree' =>
      have hroot := hsound.2
      unfold Tree.stateOf at hroot ⊢
      rw [hsound.1.act_root hact]
      exact hroot

/-! ## Capabilities -/

/-- The `has_cap` of `capable`. -/
def Caller.privileged (c : Caller) (bit : Nat) : Bool :=
  c.effective.getLsbD bit || (c.namespace_ = 1 && c.uid = 0)

theorem Line.above (h : Line tree id (front ++ s :: rest)) : Line tree s.parent rest := by
  induction front generalizing id with
  | nil =>
    cases h with
    | child _ _ _ hrest => exact hrest
  | cons t front ih =>
    cases h with
    | child _ _ _ hrest => exact ih hrest

theorem Line.parent_ne (h : Line tree id line) (hs : s ∈ line) : s.parent ≠ id := by
  obtain ⟨front, rest, rfl⟩ := List.append_of_mem hs
  intro heq
  have hlength := congrArg List.length (h.unique (heq ▸ h.above))
  rw [List.length_append, List.length_cons] at hlength
  omega

/-- The caller is privileged in a namespace not too far above, or owns the child on the way. -/
def Caller.Over (c : Caller) (bit turns : Nat) (id : Id) (line : List State) : Prop :=
  (c.namespace_ ∈ (id :: line.map State.parent).take turns ∧ c.privileged bit = true) ∨
    ∃ s ∈ line, s.parent = c.namespace_ ∧ s.owner = c.uid

theorem Line.capableFrom (h : Line tree id line) (hroot : tree.stateOf 1 = .ok .initial)
    (hown : c.namespace_ ≠ 0) (hturns : line.length ≤ turns) :
    tree.capableFrom c bit turns id = true ↔ c.Over bit turns id line := by
  unfold Caller.Over
  induction turns generalizing id line with
  | zero => simp [Tree.capableFrom, List.eq_nil_of_length_eq_zero (Nat.le_zero.mp hturns)]
  | succ turns ih =>
    rw [Tree.capableFrom, List.take_succ_cons, List.mem_cons]
    by_cases hid : id = c.namespace_
    · -- nobody owns a child above the target
      have hnone : ¬ ∃ s ∈ line, s.parent = c.namespace_ ∧ s.owner = c.uid :=
        fun ⟨s, hs, hparent, _⟩ => h.parent_ne hs (hparent.trans hid.symm)
      simp [hid, hnone, Caller.privileged]
    rw [if_neg hid, or_iff_right (Ne.symm hid)]
    cases h with
    | root =>
      have hzero : 0#64 ≠ c.namespace_ := hown.symm
      rw [hroot]
      simp [State.initial, hzero]
    | @child _ s rest _ hstate hparent hrest =>
      have hzero : s.parent ≠ 0#64 := hparent
      rw [hstate]
      by_cases howner : s.parent = c.namespace_ ∧ s.owner = c.uid
      · simp [howner]
      · simp [howner, hzero, ih hrest (Nat.le_of_succ_le_succ hturns)]

/-- Who is privileged in a namespace. -/
theorem capable_iff (h : Reachable Tree.step (· = Tree.initial) tree) {target : Id}
    (hown : tree.stores c.namespace_ ≠ none) (htarget : tree.stores target ≠ none) (bit : Nat) :
    ∃ line, Line tree target line ∧
      (tree.capable c target bit = true ↔ c.Over bit 33 target line) := by
  obtain ⟨hsound, hroot⟩ := reachable_root h
  obtain ⟨line, hline, -, hlength⟩ := hsound.lines target htarget
  exact ⟨line, hline, hline.capableFrom hroot (fun hzero => hown (hzero ▸ hsound.zero)) hlength⟩

theorem capable_iff_child :
    let root : Caller := ⟨1, 0, 0, 0, 1, false⟩
    let tree := Tree.initial.step (.prepareUnshare root)
    ∃ line, Line tree 2 line ∧ (tree.capable root 2 21 = true ↔ root.Over 21 33 2 line) :=
  capable_iff (.next _ (.start rfl)) (by decide) (by decide) 21

/-! ## Ids -/

/-- `translate_current`, for a process in the namespace. -/
def Tree.translateCurrent (tree : Tree) (id : Id) (value : BitVec 32) (group reverse : Bool) :
    Except Int (Option (BitVec 32)) := do
  if id = 1 then return if value ≠ .allOnes 32 then some value else none
  let mapping ← tree.mapToInitial id
  return if reverse then mapping.up value group else mapping.down value group

def Tree.visible (tree : Tree) (id : Id) (value : BitVec 32) (group : Bool) : BitVec 32 :=
  match tree.translateCurrent id value group true with
  | .ok (some seen) => seen
  | _ => 65534

def Tree.kernel (tree : Tree) (id : Id) (value : BitVec 32) (group : Bool) :
    Except Int (BitVec 32) := do
  match ← tree.translateCurrent id value group false with
  | some value => return value
  | none => throw 75

theorem translate_identity (value : BitVec 32) (reverse : Bool) :
    translate [identityRow] value reverse = if value ≠ .allOnes 32 then some value else none := by
  by_cases hvalue : value = .allOnes 32
  · subst hvalue
    cases reverse <;> decide
  · have hvalue' : value ≠ 4294967295#32 := hvalue
    have hlt : value < 4294967295#32 := by bv_omega
    simp [translate, Row.translate, identityRow, U32_MAX, hlt, hvalue', Nat.mod_lt]

/-- The short way of the initial namespace agrees with its map, and an id that a process names is
shown to it as the same id. -/
theorem ids_read_back (h : Reachable Tree.step (· = Tree.initial) tree)
    (hstored : tree.stores id ≠ none) (group : Bool) :
    (∃ m, tree.mapToInitial id = .ok m ∧ ∀ value reverse,
      tree.translateCurrent id value group reverse =
        .ok (if reverse then m.up value group else m.down value group)) ∧
    ∀ seen value, tree.kernel id seen group = .ok value → tree.visible id value group = seen := by
  have hsound := (reachable_root h).1
  obtain ⟨line, hline, hsane, -⟩ := hsound.lines id hstored
  have hmap := (hsound.mapToInitial hline).2.2
  have hplain : ∀ value reverse, tree.translateCurrent id value group reverse =
      .ok (if reverse then (composeLine line).up value group
        else (composeLine line).down value group) := by
    intro value reverse
    unfold Tree.translateCurrent
    by_cases hid : id = 1
    · subst hid
      obtain rfl := hline.unique .root
      simp only [composeLine, Mapping.up, Mapping.down, rows_initial, translate_identity, ite_self]
      rfl
    · rw [if_neg hid, hmap]
      rfl
  refine ⟨⟨_, hmap, hplain⟩, fun seen value hkernel => ?_⟩
  unfold Tree.kernel at hkernel
  rw [hplain] at hkernel
  unfold Tree.visible
  rw [hplain]
  cases hdown : (composeLine line).down seen group with
  | none => simp [hdown, bind, Except.bind] at hkernel
  | some w =>
    simp only [hdown, bind, Except.bind] at hkernel
    obtain rfl := Except.ok.inj hkernel
    have hup := (translate_inverse (hsane.composed group).1).mp hdown
    simp only [if_true, Mapping.up, hup]

theorem ids_read_back_child :
    let root : Caller := ⟨1, 0, 0, 0, 1, false⟩
    let tree := (Tree.initial.step (.prepareUnshare root)).step
      (.writeMap root 2 false [48, 32, 55, 32, 57] 0)
    tree.kernel 2 3 false = .ok 10 ∧ tree.visible 2 10 false = 3 :=
  ⟨by decide, (ids_read_back (.next _ (.next _ (.start rfl))) (by decide) false).2 3 10 (by decide)⟩

end Kinakaze.UserNamespace
