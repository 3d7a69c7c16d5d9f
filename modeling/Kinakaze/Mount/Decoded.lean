import Kinakaze.Mount.Lookup

/-!
# The tables that a payload decodes to

* `Forest`: what the rows of such a table are to each other when the id of the root mount is
  the root row's alone.
-/

namespace Kinakaze.Mount

def MS_ROOT : Flags := 1#64 <<< 37

/-- What the parsers of the virtual file systems accept as a source. -/
structure SourceParsers where
  tmpfs : Text → Bool
  proc : Text → Bool
  overlay : Text → Bool

/-- `normalize(source).ok().as_deref() == Some(source)`. -/
def isNormalized (source : Text) : Bool :=
  match normalize source with
  | .ok path => path.text = source
  | .error _ => false

def isRoot (row : MountPoint) : Bool := row.id = ROOT_MOUNT_ID && row.flags.has MS_ROOT

/-- The checks on the kind of one row. -/
def decodeKind (parsers : SourceParsers) (detached : Bool) (row : MountPoint) : Except Int Unit :=
  let isOverlay := row.flags.has MS_OVERLAY
  let isProc := row.flags.has MS_PROC
  let isTmpfs := row.flags.has MS_TMPFS
  let isBind := row.flags.has MS_BIND
  if !isOverlay && !isBind && !isRoot row && !isProc && !isTmpfs then .error EIO
  else if isRoot row then
    if row.source ≠ ['/'] ∨ row.target ≠ [] ∨ row.parent ≠ 0 ∨
        row.flags.has (~~~(MS_ROOT ||| MS_PROPAGATION ||| BIND_ATTRS)) then .error EIO
    else .ok ()
  else if isTmpfs then
    if isOverlay || isProc || !parsers.tmpfs row.source then .error EIO else .ok ()
  else if isProc then
    if isOverlay || !parsers.proc row.source then .error EIO else .ok ()
  else if isBind then
    if !isNormalized row.source ||
        row.flags.has (~~~(MS_BIND ||| MS_REC ||| MS_PROPAGATION ||| BIND_ATTRS)) then .error EIO
    else if row.source ≠ ['/'] ∧ hasFixedVirtualDispatch row.source ∨
        detached = false ∧ row.target ≠ [] ∧ hasFixedVirtualDispatch row.target.text then
      .error EOPNOTSUPP
    else .ok ()
  else if !parsers.overlay row.source then .error EIO
  else .ok ()

/-- One turn of the loop of `decode_table_view`. -/
def decodeRow (parsers : SourceParsers) (detached : Bool) (nextId : Nat)
    (restored : List MountPoint) (row : MountPoint) : Except Int (List MountPoint) := do
  if row.id ≠ ROOT_MOUNT_ID ∧ ¬(FIRST_DYNAMIC_MOUNT_ID ≤ row.id ∧ row.id < nextId) ∨
      restored.any fun point => point.id = row.id then throw EIO
  decodeKind parsers detached row
  if !isRoot row && row.parent ≠ ROOT_MOUNT_ID && !restored.any fun point =>
      point.id = row.parent && (suffix row.target point.target).isSome then throw EIO
  if restored.any fun point => point.parent = row.parent && point.target = row.target then
    throw EIO
  return restored ++ [row]

/-- The rows of a payload, taken in one after another. -/
def decodeRows (parsers : SourceParsers) (detached : Bool) (nextId : Nat)
    (rows : List MountPoint) : Except Int (List MountPoint) := do
  if ¬(FIRST_DYNAMIC_MOUNT_ID ≤ nextId ∧ nextId ≤ MAX_MOUNT_ID + 1) then throw EIO
  let restored ← rows.foldlM (decodeRow parsers detached nextId) []
  let _ ← namespaceRoot restored
  return restored

/-- The table is what some payload decodes to. -/
def Decodes (parsers : SourceParsers) (detached : Bool) (nextId : Nat)
    (table : List MountPoint) : Prop :=
  decodeRows parsers detached nextId table = .ok table

/-! ## The forest of the rows -/

/-- The rows hang below each other as a forest; the row of the root itself has no parent. -/
structure Forest (table : List MountPoint) : Prop where
  positive : ∀ p ∈ table, p.id ≠ 0
  order : table.Pairwise fun p q => q.parent ≠ 0 → p.parent ≠ q.id
  ordered : ∀ p ∈ table, p.parent ≠ p.id
  below : ∀ p ∈ table, ∀ q ∈ table, p.parent = q.id → q.target <+: p.target
  pairs : table.Pairwise fun p q => p.parent = q.parent → p.target ≠ q.target

/-- What the checks say of the rows that have been taken in. -/
structure Restored (rows : List MountPoint) : Prop where
  ids : ∀ p ∈ rows, p.id = ROOT_MOUNT_ID ∨ FIRST_DYNAMIC_MOUNT_ID ≤ p.id
  distinct : rows.Pairwise fun p q => p.id ≠ q.id
  roots : ∀ p ∈ rows, isRoot p = true → p.parent = 0 ∧ p.target = []
  parents : ∀ p ∈ rows, p.parent = 0 ∨ p.parent = ROOT_MOUNT_ID ∨ ∃ q ∈ rows, q.id = p.parent

variable {parsers : SourceParsers} {detached : Bool} {row : MountPoint}

theorem decodeKind_root (h : decodeKind parsers detached row = .ok ()) (hroot : isRoot row = true) :
    row.parent = 0 ∧ row.target = [] := by
  unfold decodeKind at h
  simp only [hroot] at h
  split at h
  · cases h
  rw [if_pos trivial] at h
  split at h
  · cases h
  · rename_i hnot
    simp only [not_or, not_not] at hnot
    exact ⟨hnot.2.2.1, hnot.2.1⟩

variable {nextId : Nat} {restored table : List MountPoint}

/-- What a row that is taken in is to the rows before it. -/
theorem decodeRow_ok {restored' : List MountPoint}
    (h : decodeRow parsers detached nextId restored row = .ok restored') :
    restored' = restored ++ [row] ∧ (row.id = ROOT_MOUNT_ID ∨ FIRST_DYNAMIC_MOUNT_ID ≤ row.id) ∧
      (∀ q ∈ restored, q.id ≠ row.id) ∧
      (isRoot row = true → row.parent = 0 ∧ row.target = []) ∧
      (isRoot row = false → row.parent = ROOT_MOUNT_ID ∨
        ∃ q ∈ restored, q.id = row.parent ∧ q.target <+: row.target) ∧
      ∀ q ∈ restored, q.parent = row.parent → q.target ≠ row.target := by
  unfold decodeRow at h
  obtain ⟨hid, h⟩ := Library.guard_ok.mp h
  obtain ⟨⟨⟩, hkind, h⟩ := Library.bind_ok.mp h
  obtain ⟨hparent, h⟩ := Library.guard_ok.mp h
  obtain ⟨hpair, h⟩ := Library.guard_ok.mp h
  cases h
  simp only [not_or, not_and, List.any_eq_true, decide_eq_true_eq, not_exists] at hid
  simp only [List.any_eq_true, Bool.and_eq_true, decide_eq_true_eq, not_exists, not_and] at hpair
  refine ⟨rfl, ?_, hid.2, decodeKind_root hkind, ?_, hpair⟩
  · by_cases hone : row.id = ROOT_MOUNT_ID
    · exact .inl hone
    · by_contra hrange
      exact hid.1 hone (fun hle => absurd (.inr hle) hrange)
  · intro hroot
    by_cases hone : row.parent = ROOT_MOUNT_ID
    · exact .inl hone
    · simp only [hroot, Bool.not_false, Bool.true_and, Bool.and_eq_true, decide_eq_true_eq,
        Bool.not_eq_true', not_and, Bool.not_eq_false, List.any_eq_true, suffix_isSome] at hparent
      exact .inr (hparent hone)

theorem Restored.push (h : Restored restored)
    (hid : row.id = ROOT_MOUNT_ID ∨ FIRST_DYNAMIC_MOUNT_ID ≤ row.id)
    (hnew : ∀ q ∈ restored, q.id ≠ row.id)
    (hroot : isRoot row = true → row.parent = 0 ∧ row.target = [])
    (hparent : isRoot row = false → row.parent = ROOT_MOUNT_ID ∨
      ∃ q ∈ restored, q.id = row.parent ∧ q.target <+: row.target) :
    Restored (restored ++ [row]) := by
  refine ⟨?_, ?_, ?_, ?_⟩
  · intro p hp
    rcases List.mem_append.mp hp with hp | hp
    · exact h.ids p hp
    · exact List.mem_singleton.mp hp ▸ hid
  · rw [List.pairwise_append]
    refine ⟨h.distinct, List.pairwise_singleton _ _, ?_⟩
    intro p hp q hq
    exact List.mem_singleton.mp hq ▸ hnew p hp
  · intro p hp
    rcases List.mem_append.mp hp with hp | hp
    · exact h.roots p hp
    · exact List.mem_singleton.mp hp ▸ hroot
  · intro p hp
    rcases List.mem_append.mp hp with hp | hp
    · rcases h.parents p hp with hzero | hone | ⟨q, hq, hqid⟩
      · exact .inl hzero
      · exact .inr (.inl hone)
      · exact .inr (.inr ⟨q, List.mem_append_left _ hq, hqid⟩)
    rw [List.mem_singleton.mp hp]
    cases hkind : isRoot row with
    | true => exact .inl (hroot hkind).1
    | false =>
      rcases hparent hkind with hone | ⟨q, hq, hqid, -⟩
      · exact .inr (.inl hone)
      · exact .inr (.inr ⟨q, List.mem_append_left _ hq, hqid⟩)

/-- The id of the root mount is the root row's alone. -/
def RootAlone (table : List MountPoint) : Prop :=
  ∀ p ∈ table, p.id = ROOT_MOUNT_ID → isRoot p = true

instance (table : List MountPoint) : Decidable (RootAlone table) :=
  inferInstanceAs (Decidable (∀ p ∈ table, p.id = ROOT_MOUNT_ID → isRoot p = true))

theorem Forest.push (h : Forest restored) (hrest : Restored restored)
    (halone : RootAlone (restored ++ [row]))
    (hid : row.id = ROOT_MOUNT_ID ∨ FIRST_DYNAMIC_MOUNT_ID ≤ row.id)
    (hnew : ∀ q ∈ restored, q.id ≠ row.id)
    (hroot : isRoot row = true → row.parent = 0 ∧ row.target = [])
    (hparent : isRoot row = false → row.parent = ROOT_MOUNT_ID ∨
      ∃ q ∈ restored, q.id = row.parent ∧ q.target <+: row.target)
    (hpair : ∀ q ∈ restored, q.parent = row.parent → q.target ≠ row.target) :
    Forest (restored ++ [row]) := by
  have hrow : row ∈ restored ++ [row] := by simp
  have hone : row.id = ROOT_MOUNT_ID → row.parent = 0 ∧ row.target = [] :=
    fun hid => hroot (halone row hrow hid)
  have hpos : row.id ≠ 0 := by
    simp only [ROOT_MOUNT_ID, FIRST_DYNAMIC_MOUNT_ID] at hid
    omega
  have hown : row.parent ≠ row.id := by
    cases hkind : isRoot row with
    | true => exact fun heq => hpos (heq ▸ (hroot hkind).1)
    | false =>
      rcases hparent hkind with hpar | ⟨q, hq, hqid, -⟩
      · intro heq
        have hzero := (hone (heq ▸ hpar)).1
        rw [hpar] at hzero
        cases hzero
      · exact hqid ▸ hnew q hq
  -- a row before this one hangs below the root row only
  have hearlier : ∀ p ∈ restored, p.parent = row.id → row.id = ROOT_MOUNT_ID := by
    intro p hp heq
    rcases hrest.parents p hp with hzero | hpar | ⟨q, hq, hqid⟩
    · exact absurd (heq.symm.trans hzero) hpos
    · exact heq.symm.trans hpar
    · exact absurd (hqid.trans heq) (hnew q hq)
  refine ⟨?_, ?_, ?_, ?_, ?_⟩
  · intro p hp
    rcases List.mem_append.mp hp with hp | hp
    · exact h.positive p hp
    · exact List.mem_singleton.mp hp ▸ hpos
  · rw [List.pairwise_append]
    refine ⟨h.order, List.pairwise_singleton _ _, ?_⟩
    intro p hp q hq hqparent heq
    rw [List.mem_singleton.mp hq] at hqparent heq
    exact hqparent (hone (hearlier p hp heq)).1
  · intro p hp
    rcases List.mem_append.mp hp with hp | hp
    · exact h.ordered p hp
    · exact List.mem_singleton.mp hp ▸ hown
  · intro p hp q hq heq
    rcases List.mem_append.mp hp with hp | hp
    · rcases List.mem_append.mp hq with hq | hq
      · exact h.below p hp q hq heq
      · rw [List.mem_singleton.mp hq] at heq ⊢
        rw [(hone (hearlier p hp heq)).2]
        exact List.nil_prefix
    rw [List.mem_singleton.mp hp] at heq ⊢
    rcases List.mem_append.mp hq with hq' | hq'
    · cases hkind : isRoot row with
      | true => exact absurd (heq.symm.trans (hroot hkind).1) (h.positive q hq')
      | false =>
        rcases hparent hkind with hpar | ⟨r, hr, hrid, hleads⟩
        · rw [(hrest.roots q hq' (halone q hq (heq.symm.trans hpar))).2]
          exact List.nil_prefix
        have hsame : r = q := by
          by_contra hne
          have hsym : Std.Symm fun p q : MountPoint => p.id ≠ q.id :=
            ⟨fun p q hpq => hpq.symm⟩
          exact hrest.distinct.forall hr hq' hne (hrid.trans heq)
        exact hsame ▸ hleads
    · rw [List.mem_singleton.mp hq'] at heq
      exact absurd heq hown
  · rw [List.pairwise_append]
    refine ⟨h.pairs, List.pairwise_singleton _ _, ?_⟩
    intro p hp q hq
    exact List.mem_singleton.mp hq ▸ hpair p hp

variable {rows : List MountPoint}

theorem foldlM_decodeRow (h : rows.foldlM (decodeRow parsers detached nextId) restored = .ok table)
    :
    table = restored ++ rows := by
  induction rows generalizing restored with
  | nil =>
    injection h with h
    rw [← h, List.append_nil]
  | cons row rows ih =>
    rw [List.foldlM_cons] at h
    obtain ⟨restored', hrow, h⟩ := Library.bind_ok.mp h
    rw [ih h, (decodeRow_ok hrow).1, List.append_assoc]
    rfl

theorem decodeRows_forest (hrest : Restored restored) (h : Forest restored)
    (halone : RootAlone table)
    (hrows : rows.foldlM (decodeRow parsers detached nextId) restored = .ok table) :
    Forest table := by
  induction rows generalizing restored with
  | nil =>
    cases hrows
    exact h
  | cons row rows ih =>
    rw [List.foldlM_cons] at hrows
    obtain ⟨restored', hrow, hrows⟩ := Library.bind_ok.mp hrows
    obtain ⟨rfl, hid, hnew, hroot, hparent, hpair⟩ := decodeRow_ok hrow
    have halone' : RootAlone (restored ++ [row]) := by
      intro p hp
      apply halone p
      rw [foldlM_decodeRow hrows]
      exact List.mem_append_left _ hp
    exact ih (hrest.push hid hnew hroot hparent)
      (h.push hrest halone' hid hnew hroot hparent hpair) hrows

theorem Decodes.forest (h : Decodes parsers detached nextId table)
    (halone : RootAlone table) : Forest table := by
  unfold Decodes decodeRows at h
  obtain ⟨-, h⟩ := Library.guard_ok.mp h
  obtain ⟨restored, hrows, h⟩ := Library.bind_ok.mp h
  obtain ⟨-, -, h⟩ := Library.bind_ok.mp h
  cases h
  have hnone : Restored [] := by
    refine ⟨?_, .nil, ?_, ?_⟩
    all_goals
      intro p hp
      cases hp
  have hempty : Forest [] := by
    refine ⟨?_, .nil, ?_, ?_, .nil⟩
    all_goals
      intro p hp
      cases hp
  exact decodeRows_forest hnone hempty halone hrows

theorem Forest.exists_walk (h : Forest table) (path : Path) :
    ∃ w : List MountPoint, Walk table path ROOT_MOUNT_ID w ∧ w.length ≤ table.length := by
  apply exists_walk_among (fun id => id ≠ 0) _ h.order path (List.nil_append table).symm
    (by decide) nofun
  intro p hp _
  exact ⟨h.positive p hp, h.ordered p hp⟩

end Kinakaze.Mount
