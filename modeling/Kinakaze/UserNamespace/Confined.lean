import Kinakaze.Library.StatefulCall
import Kinakaze.Library.Run
import Kinakaze.UserNamespace.Tree

/-!
# The map of a namespace stays inside that of its parent

* `mapToInitial_confined`: what holds of the map of every namespace.
-/

namespace Kinakaze.UserNamespace

open Library

/-! ## Stored states -/

/-- A state that is read back as it is. -/
def State.Storable (s : State) : Prop :=
  ∀ group : Bool, Valid (s.maps.rows group) ∧ (s.maps.rows group).length ≤ 340

variable {s : State}

theorem State.decode_encode (h : s.Storable) : decode s.encode = .ok s := by
  have hmagic : magic.length = 8 := rfl
  have howner := length_leBytes 4 s.owner.toNat
  have hflag := length_leBytes 4 (if s.deniedGroups then 1 else 0)
  have hparent := length_leBytes 8 s.parent.toNat
  have hlength : ¬s.encode.length < 24 := by
    simp only [encode, List.length_append, hmagic, howner, hflag, hparent]
    omega
  have hbytes : s.encode = magic ++ (leBytes 4 s.owner.toNat ++
      (leBytes 4 (if s.deniedGroups then 1 else 0) ++
        (leBytes 8 s.parent.toNat ++ s.maps.encode))) := by
    simp only [encode, List.append_assoc]
  have hdrop₈ : s.encode.drop 8 = leBytes 4 s.owner.toNat ++
      (leBytes 4 (if s.deniedGroups then 1 else 0) ++
        (leBytes 8 s.parent.toNat ++ s.maps.encode)) := by
    rw [hbytes]
    exact List.drop_left' hmagic
  have hdrop₁₂ : s.encode.drop 12 = leBytes 4 (if s.deniedGroups then 1 else 0) ++
      (leBytes 8 s.parent.toNat ++ s.maps.encode) := by
    have h₁₂ : s.encode.drop 12 = (s.encode.drop 8).drop 4 := by rw [List.drop_drop]
    rw [h₁₂, hdrop₈]
    exact List.drop_left' howner
  have hdrop₁₆ : s.encode.drop 16 = leBytes 8 s.parent.toNat ++ s.maps.encode := by
    have h₁₆ : s.encode.drop 16 = (s.encode.drop 12).drop 4 := by rw [List.drop_drop]
    rw [h₁₆, hdrop₁₂]
    exact List.drop_left' hflag
  have hdrop₂₄ : s.encode.drop 24 = s.maps.encode := by
    have h₂₄ : s.encode.drop 24 = (s.encode.drop 16).drop 8 := by rw [List.drop_drop]
    rw [h₂₄, hdrop₁₆]
    exact List.drop_left' hparent
  have htake : s.encode.take 8 = magic := by
    rw [hbytes]
    exact List.take_left' hmagic
  have hmaps := Mapping.decode_encode (fun group => (h group).1) fun group => (h group).2
  rw [decode, if_neg (by simp [hlength, htake]), hdrop₈, hdrop₁₂, hdrop₁₆, hdrop₂₄, hmaps,
    List.take_left' howner, List.take_left' hflag, List.take_left' hparent]
  simp only [bind, Except.bind, pure, Except.pure, Except.ok.injEq]
  have hdenied : (leBytes 4 (if s.deniedGroups then 1 else 0) != [0, 0, 0, 0]) =
      s.deniedGroups := by cases s.deniedGroups <;> rfl
  rw [ofNat_ofLe_leBytes 4 rfl, ofNat_ofLe_leBytes 8 rfl, hdenied]

/-! ## Lines -/

/-- The states from a namespace up to the initial one, that one left out. -/
inductive Line (tree : Tree) : Id → List State → Prop
  | root : Line tree 1 []
  | child {id : Id} {s : State} {rest : List State} (hid : id ≠ 1) (hstate : tree.stateOf id = .ok s)
      (hparent : s.parent ≠ 0) (hrest : Line tree s.parent rest) : Line tree id (s :: rest)

variable {tree tree' : Tree} {id target : Id}

theorem Line.unique {line line' : List State} (h : Line tree id line)
    (h' : Line tree id line') : line = line' := by
  induction h generalizing line' with
  | root =>
    cases h' with
    | root => rfl
    | child hid => exact absurd rfl hid
  | child hid hstate hparent hrest ih =>
    cases h' with
    | root => exact absurd rfl hid
    | child hid' hstate' hparent' hrest' =>
      obtain rfl := Except.ok.inj (hstate.symm.trans hstate')
      rw [ih hrest']

/-- The maps of a line, composed. -/
def composeLine : List State → Mapping
  | [] => State.initial.maps
  | s :: rest => s.maps.compose (composeLine rest)

@[simp] theorem Mapping.rows_compose (child parent : Mapping) (group : Bool) :
    (child.compose parent).rows group = composeRows (child.rows group) (parent.rows group) := by
  cases group <;> rfl

/-- Each map of a line is valid and leads into the composed map above it. -/
inductive Sane : List State → Prop
  | nil : Sane []
  | cons {s : State} {rest : List State} (hstorable : s.Storable)
      (hadmitted : ∀ group : Bool, Admitted (s.maps.rows group) ((composeLine rest).rows group))
      (hrest : Sane rest) : Sane (s :: rest)

theorem Sane.uncons {rest : List State} (h : Sane (s :: rest)) :
    s.Storable ∧ (∀ group : Bool, Admitted (s.maps.rows group) ((composeLine rest).rows group)) ∧
      Sane rest := by
  cases h with
  | cons hstorable hadmitted hrest => exact ⟨hstorable, hadmitted, hrest⟩

theorem valid_identity : Valid [identityRow] := validate_ok.mp (by decide)

theorem rows_initial (group : Bool) : State.initial.maps.rows group = [identityRow] := by
  cases group <;> rfl

theorem Sane.composed {line : List State} (h : Sane line) (group : Bool) :
    Valid ((composeLine line).rows group) ∧ ((composeLine line).rows group).length ≤ 340 := by
  induction h with
  | nil =>
    rw [composeLine, rows_initial]
    exact ⟨valid_identity, by decide⟩
  | cons hstorable hadmitted hrest ih =>
    obtain ⟨hvalid, hlength⟩ := (hstorable group).1.compose ih.1 (hadmitted group)
    rw [composeLine, Mapping.rows_compose]
    exact ⟨hvalid, hlength.trans_le (hstorable group).2⟩

variable {rows parent : List Row}

theorem Admitted.nil (h : Admitted rows []) : rows = [] := by
  cases rows with
  | nil => rfl
  | cons row rest =>
    obtain ⟨p, hp, -⟩ := h row.extent (by simp [extents])
    cases hp

/-! ## The composed map of a line is what `map_to_initial` finds -/

variable {turns offset : Nat}

theorem Line.climb {line : List State} (h : Line tree id line)
    (hroot : ∃ s : State, tree.stateOf 1 = .ok s ∧ s.maps = State.initial.maps)
    (hturns : line.length ≤ turns) :
    tree.climb turns id = .ok (line.map State.maps ++
      (if line.length < turns then [State.initial.maps] else []), 1) := by
  induction h generalizing turns with
  | root =>
    obtain ⟨s, hs, hmaps⟩ := hroot
    cases turns with
    | zero => rfl
    | succ turns =>
      simp only [Tree.climb, hs, hmaps, bind, Except.bind, pure, Except.pure, if_true,
        List.map_nil, List.nil_append, List.length_nil, Nat.zero_lt_succ]
  | child hid hstate hparent hrest ih =>
    cases turns with
    | zero => simp at hturns
    | succ turns =>
      have hrec := ih (Nat.le_of_succ_le_succ hturns)
      simp only [Tree.climb, hstate, bind, Except.bind, if_neg hid, if_neg hparent, hrec,
        pure, Except.pure, List.map_cons, List.cons_append, List.length_cons,
        Nat.add_lt_add_iff_right]

theorem composeRows_identity (h : Valid rows) : composeRows rows [identityRow] = rows := by
  have hmeet : ∀ row ∈ rows, row.meet identityRow = some row := by
    intro row hrow
    obtain ⟨hcount, hin, hout⟩ := h.good row hrow
    have hidentity : identityRow.inside.toNat = 0 ∧ identityRow.outside.toNat = 0 ∧
        identityRow.count.toNat = U32_MAX := ⟨rfl, rfl, rfl⟩
    have hmax : max row.outside.toNat identityRow.inside.toNat = row.outside.toNat := by omega
    have hmin : min (row.outside.toNat + row.count.toNat)
        (identityRow.inside.toNat + identityRow.count.toNat) =
        row.outside.toNat + row.count.toNat := by omega
    simp only [Row.meet, hmax, hmin]
    rw [if_pos (by omega)]
    obtain ⟨inside, outside, count⟩ := row
    simp [identityRow]
  rw [composeRows]
  clear h
  induction rows with
  | nil => rfl
  | cons row rest ih =>
    rw [List.flatMap_cons, List.filterMap_cons, hmeet row (by simp),
      ih fun row' hrow' => hmeet row' (by simp [hrow'])]
    rfl

theorem composeChain_root (line : List State) :
    composeChain (line.map State.maps ++ [State.initial.maps]) = .ok (composeLine line) := by
  induction line with
  | nil => rfl
  | cons s rest ih =>
    obtain ⟨m, ms, hms⟩ : ∃ m ms, rest.map State.maps ++ [State.initial.maps] = m :: ms :=
      List.exists_cons_of_ne_nil (by simp)
    rw [hms] at ih
    rw [List.map_cons, List.cons_append, hms, composeChain, ih]
    · rfl
    · simp

theorem Sane.composeChain {line : List State} (h : Sane line) (hline : line ≠ []) :
    UserNamespace.composeChain (line.map State.maps) = .ok (composeLine line) := by
  induction h with
  | nil => exact absurd rfl hline
  | @cons s rest hstorable hadmitted hrest ih =>
    cases rest with
    | nil =>
      have huid := composeRows_identity (hstorable false).1
      have hgid := composeRows_identity (hstorable true).1
      simp only [Mapping.rows, if_true, Bool.false_eq_true, if_false] at huid hgid
      simp only [List.map_cons, List.map_nil, UserNamespace.composeChain, composeLine,
        Mapping.compose, State.initial, huid, hgid]
    | cons s' rest =>
      have hrec := ih (List.cons_ne_nil s' rest)
      rw [List.map_cons] at hrec ⊢
      rw [List.map_cons, UserNamespace.composeChain, hrec]
      · rfl
      · simp

theorem Line.mapToInitial {line : List State} (h : Line tree id line)
    (hroot : ∃ s : State, tree.stateOf 1 = .ok s ∧ s.maps = State.initial.maps) (hsane : Sane line)
    (hlength : line.length ≤ 33) : tree.mapToInitial id = .ok (composeLine line) := by
  have hclimb := h.climb hroot hlength
  simp only [Tree.mapToInitial, hclimb, bind, Except.bind, ne_eq, not_true_eq_false, if_false]
  by_cases hlt : line.length < 33
  · rw [if_pos hlt]
    exact composeChain_root line
  rw [if_neg hlt, List.append_nil]
  refine hsane.composeChain fun hnil => hlt ?_
  rw [hnil]
  decide

/-! ## What a call does to the lines -/

/-- The parents stay, a map that has rows stays, and a sane line stays sane when the state
at its bottom changes. -/
def Grown (tree tree' : Tree) : Prop :=
  ∀ (id : Id) (s : State), id ≠ 1 → tree.stateOf id = .ok s →
    ∃ s' : State, tree'.stateOf id = .ok s' ∧ s'.parent = s.parent ∧
      (∀ group : Bool, s.maps.rows group ≠ [] → s'.maps.rows group = s.maps.rows group) ∧
      ∀ rest : List State, Line tree s.parent rest → Sane (s :: rest) → Sane (s' :: rest)

theorem Admitted.keep {parent' : List Row} (h : Admitted rows parent)
    (hkeep : parent ≠ [] → parent' = parent) : Admitted rows parent' := by
  by_cases hparent : parent = []
  · rw [hparent] at h
    rw [h.nil]
    exact nofun
  · rw [hkeep hparent]
    exact h

theorem Grown.line (h : Grown tree tree') {line : List State} (hline : Line tree id line)
    (hsane : Sane line) :
    ∃ line' : List State, Line tree' id line' ∧ Sane line' ∧ line'.length = line.length ∧
      ∀ group : Bool, (composeLine line).rows group ≠ [] →
        (composeLine line').rows group = (composeLine line).rows group := by
  induction hline with
  | root => exact ⟨[], .root, .nil, rfl, fun _ _ => rfl⟩
  | @child id s rest hid hstate hparent hrest ih =>
    obtain ⟨s', hstate', hparent', hkeep, hsane'⟩ := h id s hid hstate
    obtain ⟨hstorable, hadmitted, hrestSane⟩ := (hsane' rest hrest hsane).uncons
    obtain ⟨rest', hrest', hrestSane', hlength, hcomposed⟩ := ih hrestSane
    refine ⟨s' :: rest', .child hid hstate' (hparent' ▸ hparent) (hparent' ▸ hrest'),
      .cons hstorable (fun group => (hadmitted group).keep (hcomposed group)) hrestSane',
      by simp [hlength], fun group hgroup => ?_⟩
    simp only [composeLine, Mapping.rows_compose] at hgroup ⊢
    have hown : s.maps.rows group ≠ [] := fun hnil => hgroup (by rw [hnil]; rfl)
    have hrow := hkeep group hown
    -- Rows that lead somewhere lead into a map with rows, and that one stays.
    have habove : (composeLine rest).rows group ≠ [] := fun hnil => by
      have hempty := hadmitted group
      rw [hnil] at hempty
      exact hown (hrow ▸ hempty.nil)
    rw [hrow, hcomposed group habove]

/-- Every stored namespace has a sane line of at most 33 states, and the ids from the
counter on are free. -/
structure Sound (tree : Tree) : Prop where
  root : ∃ s : State, tree.stateOf 1 = .ok s ∧ s.maps = State.initial.maps
  zero : tree.stores 0 = none
  counter : 2 ≤ tree.next.toNat
  fresh : ∀ id : Id, tree.next.toNat ≤ id.toNat → tree.stores id = none
  lines : ∀ id : Id, tree.stores id ≠ none →
    ∃ line : List State, Line tree id line ∧ Sane line ∧ line.length ≤ 33

theorem stored_of_stateOf (h : tree.stateOf id = .ok s) : tree.stores id ≠ none := by
  intro hnone
  rw [Tree.stateOf, hnone] at h
  cases h

theorem stateOf_update (tree : Tree) (target : Id) (h : s.Storable) (next id : Id) :
    Tree.stateOf ⟨Function.update tree.stores target (some s.encode), next⟩ id =
      if id = target then .ok s else tree.stateOf id := by
  unfold Tree.stateOf
  by_cases hid : id = target
  · subst hid
    simp only [Function.update_self, if_true]
    exact State.decode_encode h
  · simp only [Function.update_of_ne hid, if_neg hid]

theorem Sound.mapToInitial (h : Sound tree) {line : List State}
    (hline : Line tree id line) : Sane line ∧ line.length ≤ 33 ∧
      tree.mapToInitial id = .ok (composeLine line) := by
  have hstored : tree.stores id ≠ none := by
    cases hline with
    | root => exact stored_of_stateOf h.root.choose_spec.1
    | child _ hstate _ _ => exact stored_of_stateOf hstate
  obtain ⟨line', hline', hsane, hlength⟩ := h.lines id hstored
  obtain rfl := hline.unique hline'
  exact ⟨hsane, hlength, hline.mapToInitial h.root hsane hlength⟩

theorem Sound.replace (h : Sound tree) {s' : State} (htarget : target ≠ 1)
    (hstate : tree.stateOf target = .ok s) (hparent : s'.parent = s.parent)
    (hkeep : ∀ group : Bool, s.maps.rows group ≠ [] → s'.maps.rows group = s.maps.rows group)
    (hsane : ∀ rest : List State, Line tree s.parent rest → Sane (s :: rest) → Sane (s' :: rest)) :
    Sound { tree with stores := Function.update tree.stores target (some s'.encode) } := by
  have hstored := stored_of_stateOf hstate
  have hstorable : s'.Storable := by
    obtain ⟨line, hline, hline', -⟩ := h.lines target hstored
    cases hline with
    | root => exact absurd rfl htarget
    | child _ hstate' _ hrest =>
      obtain rfl := Except.ok.inj (hstate.symm.trans hstate')
      exact (hsane _ hrest hline').uncons.1
  have hstateOf := stateOf_update tree target hstorable tree.next
  have hgrown : Grown tree
      { tree with stores := Function.update tree.stores target (some s'.encode) } := by
    intro id t hid ht
    by_cases hne : id = target
    · subst hne
      obtain rfl := Except.ok.inj (hstate.symm.trans ht)
      exact ⟨s', by rw [hstateOf, if_pos rfl], hparent, hkeep, hsane⟩
    · exact ⟨t, by rw [hstateOf, if_neg hne, ht], rfl, fun _ _ => rfl, fun _ _ hs => hs⟩
  have hsame : ∀ id : Id, Function.update tree.stores target (some s'.encode) id = none ↔
      tree.stores id = none := by
    intro id
    by_cases hne : id = target
    · subst hne
      simp [hstored]
    · rw [Function.update_of_ne hne]
  obtain ⟨root, hroot, hrootMaps⟩ := h.root
  refine ⟨⟨root, ?_, hrootMaps⟩, (hsame 0).mpr h.zero, h.counter,
    fun id hid => (hsame id).mpr (h.fresh id hid), fun id hid => ?_⟩
  · rw [hstateOf, if_neg htarget.symm, hroot]
  · obtain ⟨line, hline, hlineSane, hlength⟩ := h.lines id (mt (hsame id).mpr hid)
    obtain ⟨line', hline', hlineSane', hlength', -⟩ := hgrown.line hline hlineSane
    exact ⟨line', hline', hlineSane', hlength'.trans_le hlength⟩

/-! ## Calls -/

variable {c : Caller}

theorem prepareUnshare_ok (h : tree.prepareUnshare c = .ok tree') :
    ∃ (m : Mapping) (denied : Bool), tree.mapToInitial c.namespace_ = .ok m ∧
      tree.checkDepth 32 c.namespace_ = .ok () ∧ tree.next.toNat < 2 ^ 64 - 1 - 2 ^ 32 ∧
      tree' = ⟨Function.update tree.stores tree.next
        (some (State.encode ⟨c.uid, c.namespace_, denied, [], []⟩)), tree.next + 1⟩ := by
  simp only [Tree.prepareUnshare, guard_ok, bind_ok] at h
  obtain ⟨-, m, hm, -, -, _, hdepth, ⟨id, next⟩, hnew, h⟩ := h
  unfold Tree.newObject at hnew
  split at hnew
  · next hlt =>
    cases hnew
    cases h
    exact ⟨m, _, hm, hdepth, hlt, rfl⟩
  · cases hnew

theorem admitted_of_all (h : rows.all (Row.admitted parent) = true) : Admitted rows parent := by
  intro e he
  obtain ⟨row, hrow, rfl⟩ := List.mem_map.mp he
  obtain ⟨p, hp, hfits⟩ := List.any_eq_true.mp (List.all_eq_true.mp h row hrow)
  simp only [Bool.and_eq_true, decide_eq_true_eq] at hfits
  exact ⟨p.extent, List.mem_map_of_mem hp, hfits⟩

variable {bytes value : Bytes}

theorem writeMap_ok {group : Bool} (h : tree.writeMap c target group bytes offset = .ok tree') :
    ∃ (s : State) (rows : List Row) (parentMap : Mapping), tree.stateOf target = .ok s ∧
      target ≠ 1 ∧ rows.length ≤ 340 ∧ Valid rows ∧ tree.mapToInitial s.parent = .ok parentMap ∧
      Admitted rows (parentMap.rows group) ∧ s.maps.rows group = [] ∧
      tree' = ⟨Function.update tree.stores target
        (some (State.encode { s with maps := s.maps.setRows group rows })), tree.next⟩ := by
  simp only [Tree.writeMap, guard_ok, bind_ok] at h
  obtain ⟨-, s, hs, htarget, text, -, rows, -, hcount, _, hvalid, s', hs', h⟩ := h
  simp only [Tree.writeRows, guard_ok, bind_ok] at hs'
  obtain ⟨-, parentMap, hmap, hall, -, hempty, hs'⟩ := hs'
  cases hs'
  cases h
  exact ⟨s, rows, parentMap, hs, htarget, by omega, validate_ok.mp hvalid, hmap,
    admitted_of_all (by simpa using hall), not_not.mp hempty, rfl⟩

theorem groups_ok (h : tree.groups c target value = .ok tree') :
    ∃ (s : State) (denied : Bool), tree.stateOf target = .ok s ∧ target ≠ 1 ∧
      tree' = ⟨Function.update tree.stores target
        (some (State.encode { s with deniedGroups := denied })), tree.next⟩ := by
  simp only [Tree.groups, bind_ok] at h
  obtain ⟨s, hs, s', hs', h⟩ := h
  simp only [Tree.setGroups, guard_ok, bind_ok, not_or] at hs'
  obtain ⟨⟨htarget, -⟩, text, -, hs'⟩ := hs'
  cases h
  refine ⟨s, s'.deniedGroups, hs, htarget, ?_⟩
  split_ifs at hs' <;> cases hs' <;> rfl

theorem Line.length_le {line : List State} (h : Line tree id line)
    (hdepth : tree.checkDepth turns id = .ok ()) : line.length ≤ turns := by
  induction h generalizing turns with
  | root => exact Nat.zero_le turns
  | child hid hstate hparent hrest ih =>
    cases turns with
    | zero =>
      rw [Tree.checkDepth, if_neg hid] at hdepth
      cases hdepth
    | succ turns =>
      rw [Tree.checkDepth, if_neg hid] at hdepth
      simp only [hstate, bind, Except.bind] at hdepth
      exact Nat.succ_le_succ (ih hdepth)

theorem Mapping.rows_setRows (m : Mapping) (group group' : Bool) (rows : List Row) :
    (m.setRows group rows).rows group' = if group' = group then rows else m.rows group' := by
  cases group <;> cases group' <;> rfl

theorem Sound.writeMap (h : Sound tree) {group : Bool}
    (hwrite : tree.writeMap c target group bytes offset = .ok tree') : Sound tree' := by
  obtain ⟨s, rows, parentMap, hstate, htarget, hcount, hvalid, hmap, hadmitted, hempty, rfl⟩ :=
    writeMap_ok hwrite
  refine h.replace htarget hstate rfl (fun group' hrows => ?_) fun rest hrest hsane => ?_
  · have hne : group' ≠ group := fun heq => hrows (heq ▸ hempty)
    rw [Mapping.rows_setRows, if_neg hne]
  obtain ⟨hstorable, hold, hrestSane⟩ := hsane.uncons
  -- The rows were admitted to the composed map of this very line.
  obtain rfl := Except.ok.inj (hmap.symm.trans (h.mapToInitial hrest).2.2)
  refine .cons (fun group' => ?_) (fun group' => ?_) hrestSane
  · simp only [Mapping.rows_setRows]
    split
    · exact ⟨hvalid, hcount⟩
    · exact hstorable group'
  · simp only [Mapping.rows_setRows]
    split
    · next heq => exact heq ▸ hadmitted
    · exact hold group'

theorem Sound.groups (h : Sound tree) (hwrite : tree.groups c target value = .ok tree') :
    Sound tree' := by
  obtain ⟨s, denied, hstate, htarget, rfl⟩ := groups_ok hwrite
  refine h.replace htarget hstate rfl (fun _ _ => rfl) fun rest _ hsane => ?_
  obtain ⟨hstorable, hadmitted, hrestSane⟩ := hsane.uncons
  exact .cons hstorable hadmitted hrestSane

theorem next_add_one {next : Id} (h : next.toNat < 2 ^ 64 - 1 - 2 ^ 32) :
    (next + 1).toNat = next.toNat + 1 := by
  have hone : (1 : Id).toNat = 1 := rfl
  rw [BitVec.toNat_add, hone, Nat.mod_eq_of_lt (by omega)]

theorem Sound.newObject (h : Sound tree)
    (hnew : tree.newObject = .ok (id, tree')) : Sound tree' := by
  unfold Tree.newObject at hnew
  split at hnew
  · next hlt =>
    cases hnew
    have hnext := next_add_one hlt
    have hsame : Grown tree { tree with next := tree.next + 1 } :=
      fun id s _ hs => ⟨s, hs, rfl, fun _ _ => rfl, fun _ _ hsane => hsane⟩
    refine ⟨h.root, h.zero, by simp only [hnext]; have := h.counter; omega,
      fun id hid => h.fresh id (by simp only [hnext] at hid; omega), fun id hid => ?_⟩
    obtain ⟨line, hline, hsane, hlength⟩ := h.lines id hid
    obtain ⟨line', hline', hsane', hlength', -⟩ := hsame.line hline hsane
    exact ⟨line', hline', hsane', hlength'.trans_le hlength⟩
  · cases hnew

theorem stored_of_mapToInitial {m : Mapping}
    (h : tree.mapToInitial id = .ok m) : tree.stores id ≠ none := by
  simp only [Tree.mapToInitial, Tree.climb, bind_ok] at h
  obtain ⟨-, ⟨s, hs, -⟩, -⟩ := h
  exact stored_of_stateOf hs

theorem Sound.prepareUnshare (h : Sound tree)
    (hprepare : tree.prepareUnshare c = .ok tree') : Sound tree' := by
  obtain ⟨m, denied, hmap, hdepth, hlt, rfl⟩ := prepareUnshare_ok hprepare
  have hnext := next_add_one hlt
  have hcounter := h.counter
  have hparent := stored_of_mapToInitial hmap
  obtain ⟨line, hline, hsane, -⟩ := h.lines c.namespace_ hparent
  have hstorable : State.Storable ⟨c.uid, c.namespace_, denied, [], []⟩ := fun group => by
    cases group <;> exact ⟨⟨nofun, .nil⟩, Nat.zero_le 340⟩
  have hfree : tree.stores tree.next = none := h.fresh tree.next le_rfl
  have hne : ∀ {id : Id}, tree.stores id ≠ none → id ≠ tree.next := by
    rintro id hid rfl
    exact hid hfree
  have hstateOf := stateOf_update tree tree.next hstorable (tree.next + 1)
  obtain ⟨root, hroot, hrootMaps⟩ := h.root
  have hone : (1 : Id) ≠ tree.next := hne (stored_of_stateOf hroot)
  have hgrown : Grown tree ⟨Function.update tree.stores tree.next
      (some (State.encode ⟨c.uid, c.namespace_, denied, [], []⟩)), tree.next + 1⟩ :=
    fun id s _ hs => ⟨s, by rw [hstateOf, if_neg (hne (stored_of_stateOf hs)), hs], rfl,
      fun _ _ => rfl, fun _ _ hsane => hsane⟩
  refine ⟨⟨root, ?_, hrootMaps⟩, ?_, ?_, fun id hid => ?_, fun id hid => ?_⟩
  · rw [hstateOf, if_neg hone, hroot]
  · have hzero : (0 : Id) ≠ tree.next := by
      intro heq
      rw [← heq] at hcounter
      exact absurd hcounter (by decide)
    simp only [Function.update_of_ne hzero, h.zero]
  · simp only [hnext]
    omega
  · simp only [hnext] at hid
    have hid' : id ≠ tree.next := by
      rintro rfl
      omega
    simp only [Function.update_of_ne hid']
    exact h.fresh id (by omega)
  · by_cases hid' : id = tree.next
    · -- The new namespace: its maps are empty.
      subst hid'
      obtain ⟨line', hline', hsane', hlength', -⟩ := hgrown.line hline hsane
      refine ⟨_ :: line', .child hone.symm (by rw [hstateOf, if_pos rfl]) ?_ hline',
        .cons hstorable (fun group => ?_) hsane', ?_⟩
      · intro hzero
        have hroot₀ : c.namespace_ = 0 := hzero
        exact hparent (hroot₀ ▸ h.zero)
      · cases group <;> exact nofun
      · have hshort := hline.length_le hdepth
        simp only [List.length_cons, hlength']
        omega
    · simp only [Function.update_of_ne hid'] at hid
      obtain ⟨line₀, hline₀, hsane₀, hlength₀⟩ := h.lines id hid
      obtain ⟨line', hline', hsane', hlength', -⟩ := hgrown.line hline₀ hsane₀
      exact ⟨line', hline', hsane', hlength'.trans_le hlength₀⟩

/-! ## Runs -/

theorem Sound.initial : Sound Tree.initial := by
  have hstorable : State.initial.Storable := fun group => by
    rw [rows_initial]
    exact ⟨valid_identity, by decide⟩
  have hroot : Tree.initial.stateOf 1 = .ok State.initial := State.decode_encode hstorable
  refine ⟨⟨_, hroot, rfl⟩, rfl, by decide, fun id hid => ?_, fun id hid => ?_⟩
  · refine if_neg ?_
    rintro rfl
    exact absurd hid (by decide)
  · by_cases hone : id = 1
    · exact ⟨[], hone ▸ .root, .nil, Nat.zero_le 33⟩
    · exact absurd (if_neg hone) hid

theorem Sound.act (h : Sound tree) {a : Action} (hact : tree.act a = .ok tree') : Sound tree' := by
  cases a with
  | prepareUnshare c => exact h.prepareUnshare hact
  | writeMap c target group bytes offset => exact h.writeMap hact
  | groups c target value => exact h.groups hact
  | newObject =>
    simp only [Tree.act] at hact
    cases hnew : tree.newObject with
    | error e =>
      rw [hnew] at hact
      cases hact
    | ok made =>
      rw [hnew] at hact
      cases hact
      exact h.newObject hnew

theorem Sound.step (h : Sound tree) (a : Action) : Sound (tree.step a) := by
  unfold Tree.step
  cases hact : tree.act a with
  | error e => exact h
  | ok tree' => exact h.act hact

theorem Sound.run (actions : List Action) : Sound (Library.run Tree.step Tree.initial actions) := by
  have hstart : Reachable Tree.step (fun tree => tree = Tree.initial) Tree.initial :=
    .start rfl
  exact (hstart.run Tree.step actions).invariant Tree.step (fun _ heq => heq ▸ Sound.initial)
    fun _ a htree => htree.step a

/-! ## The map of a namespace -/

/-- An id taken down through the maps of a line, one after the other. -/
def downLine (group : Bool) : List State → BitVec 32 → Option (BitVec 32)
  | [], value => State.initial.maps.down value group
  | s :: rest, value => (s.maps.down value group).bind (downLine group rest)

/-- The map `m` of a namespace grants no more than those above it. -/
structure Confined (tree : Tree) (id : Id) (m : Mapping) : Prop where
  valid : ∀ group : Bool, validate (m.rows group) = .ok ()
  levels : ∃ line : List State, Line tree id line ∧
    ∀ (group : Bool) (value : BitVec 32), m.down value group = downLine group line value
  inverse : ∀ (group : Bool) (value u : BitVec 32),
    m.down value group = some u ↔ m.up u group = some value
  image : id ≠ 1 → ∃ (s : State) (parentMap : Mapping), tree.stateOf id = .ok s ∧
    tree.mapToInitial s.parent = .ok parentMap ∧
    ∀ (group : Bool) (value u : BitVec 32), m.down value group = some u →
      ∃ w : BitVec 32, parentMap.down w group = some u
  length : ∀ group : Bool, (m.rows group).length ≤ 340
  stored : Mapping.decode m.encode = .ok m

theorem Sane.down {line : List State} (h : Sane line) (group : Bool) (value : BitVec 32) :
    (composeLine line).down value group = downLine group line value := by
  induction h generalizing value with
  | nil => rfl
  | @cons s rest hstorable hadmitted hrest ih =>
    have hcompose := down_composeRows (hstorable group).1 (hrest.composed group).1
      (hadmitted group) value
    rw [Mapping.down, composeLine, Mapping.rows_compose, hcompose, downLine]
    exact congrArg _ (funext ih)

theorem mapToInitial_confined (actions : List Action) (id : Id)
    (hstored : (Library.run Tree.step Tree.initial actions).stores id ≠ none) :
    ∃ m : Mapping, (Library.run Tree.step Tree.initial actions).mapToInitial id = .ok m ∧
      Confined (Library.run Tree.step Tree.initial actions) id m := by
  have hsound := Sound.run actions
  obtain ⟨line, hline, hsane, hlength⟩ := hsound.lines id hstored
  have hvalid : ∀ group : Bool, Valid ((composeLine line).rows group) :=
    fun group => (hsane.composed group).1
  refine ⟨composeLine line, hline.mapToInitial hsound.root hsane hlength, ?_⟩
  refine ⟨fun group => validate_ok.mpr (hvalid group), ⟨line, hline, hsane.down⟩,
    fun group value u => translate_inverse (hvalid group), fun hid => ?_,
    fun group => (hsane.composed group).2,
    Mapping.decode_encode hvalid fun group => (hsane.composed group).2⟩
  cases hline with
  | root => exact absurd rfl hid
  | @child _ s rest _ hstate _ hrest =>
    have hrestMap := hsound.mapToInitial hrest
    refine ⟨s, composeLine rest, hstate, hrestMap.2.2, fun group value u hdown => ?_⟩
    rw [hsane.down, downLine] at hdown
    obtain ⟨w, -, hw⟩ := Option.bind_eq_some_iff.mp hdown
    exact ⟨w, (hrestMap.1.down group w).trans hw⟩

/-- The initial namespace has a child, and maps nine ids into it. -/
theorem mapToInitial_confined_child :
    let root : Caller := ⟨1, 0, 0, 0, 1, false⟩
    let actions := [Action.prepareUnshare root, .writeMap root 2 false [48, 32, 55, 32, 57] 0]
    ∃ m : Mapping, (Library.run Tree.step Tree.initial actions).mapToInitial 2 = .ok m ∧
      Confined (Library.run Tree.step Tree.initial actions) 2 m :=
  mapToInitial_confined _ 2 (by decide)

end Kinakaze.UserNamespace
