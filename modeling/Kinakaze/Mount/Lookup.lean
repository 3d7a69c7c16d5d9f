import Kinakaze.Mount.Table
import Mathlib.Data.List.Pairwise

/-!
# Lookups in a table of native mounts

* `Walk`: the mounts a lookup passes through; `visibleMount_walk` says that
  `visible_mount` ends at the last of them.
-/

namespace Kinakaze.Mount

def VIRTUAL : Flags := MS_OVERLAY ||| MS_PROC ||| MS_TMPFS

/-- A table of bind mounts; `next` is the first id not yet given out.  The row that holds
the flags of the root itself has no parent. -/
structure Native (next : Nat) (table : List MountPoint) : Prop where
  ids : ∀ p ∈ table, p.parent = 0 ∧ p.id = ROOT_MOUNT_ID ∧ p.target = [] ∨
    FIRST_DYNAMIC_MOUNT_ID ≤ p.id ∧ p.id < next ∧ p.parent ≠ 0 ∧ p.parent < next
  native : ∀ p ∈ table, p.flags.has VIRTUAL = false
  distinct : table.Pairwise fun p q => p.id ≠ q.id
  ordered : ∀ p ∈ table, p.parent ≠ p.id
  order : table.Pairwise fun p q => p.parent ≠ q.id
  below : ∀ p ∈ table, ∀ q ∈ table, p.parent = q.id → q.target <+: p.target
  pairs : table.Pairwise fun p q => p.parent = q.parent → p.target ≠ q.target

theorem Native.empty : Native FIRST_DYNAMIC_MOUNT_ID [] :=
  ⟨nofun, nofun, .nil, nofun, .nil, nofun, .nil⟩

/-! ## The first of the smallest -/

theorem minByKey_mem {α : Type} {key : α → Nat} {l : List α} {x : α}
    (h : minByKey key l = some x) : x ∈ l ∧ ∀ y ∈ l, key x ≤ key y := by
  induction l generalizing x with
  | nil => cases h
  | cons a rest ih =>
    rw [minByKey] at h
    cases hrest : minByKey key rest with
    | none =>
      have hnil : rest = [] := by
        cases rest with
        | nil => rfl
        | cons b rest =>
          rw [minByKey] at hrest
          split at hrest
          · cases hrest
          · split at hrest <;> cases hrest
      rw [hrest] at h
      cases h
      rw [hnil]
      exact ⟨by simp, fun y hy => (List.mem_singleton.mp hy) ▸ Nat.le_refl _⟩
    | some b =>
      rw [hrest] at h
      obtain ⟨hb, hmin⟩ := ih hrest
      simp only at h
      split at h
      · next hle =>
        cases h
        refine ⟨by simp, fun y hy => ?_⟩
        rcases List.mem_cons.mp hy with rfl | hy
        · exact Nat.le_refl _
        · exact Nat.le_trans hle (hmin y hy)
      · next hlt =>
        cases h
        refine ⟨by simp [hb], fun y hy => ?_⟩
        rcases List.mem_cons.mp hy with rfl | hy
        · omega
        · exact hmin y hy

theorem minByKey_eq_none {α : Type} {key : α → Nat} {l : List α} :
    minByKey key l = none ↔ l = [] := by
  cases l with
  | nil => simp [minByKey]
  | cons a rest =>
    rw [minByKey]
    cases minByKey key rest with
    | none => simp
    | some b =>
      simp only [reduceCtorEq, iff_false]
      split <;> simp

/-! ## Children -/

/-- `c` is the attachment below `id` a lookup of `path` goes to. -/
structure Child (table : List MountPoint) (path : Path) (id : Nat) (c : MountPoint) : Prop where
  mem : c ∈ table
  parent : c.parent = id
  leads : c.target <+: path
  first : ∀ d ∈ table, d.parent = id → d.target <+: path → c.target.length ≤ d.target.length

variable {path : Path}

theorem suffix_isSome {target : Path} : (suffix path target).isSome = true ↔ target <+: path := by
  unfold suffix
  split
  · next h => simp [h]
  · next h => simp [h]

variable {table w : List MountPoint} {id next : Nat}

theorem firstChild_eq_none :
    firstChild table path id = none ↔ ∀ d ∈ table, d.parent = id → ¬d.target <+: path := by
  rw [firstChild, minByKey_eq_none, List.filter_eq_nil_iff]
  simp only [Bool.and_eq_true, decide_eq_true_eq, suffix_isSome, not_and]

variable {c : MountPoint}

theorem eq_of_pairs {d : MountPoint}
    (hpairs : table.Pairwise fun p q => p.parent = q.parent → p.target ≠ q.target)
    (hc : c ∈ table) (hd : d ∈ table) (hparent : c.parent = d.parent)
    (htarget : c.target = d.target) : c = d := by
  by_contra hne
  have hsym : Std.Symm fun p q : MountPoint => p.parent = q.parent → p.target ≠ q.target :=
    ⟨fun p q hpq heq => (hpq heq.symm).symm⟩
  exact hpairs.forall hc hd hne hparent htarget

theorem firstChild_iff
    (hpairs : table.Pairwise fun p q => p.parent = q.parent → p.target ≠ q.target) :
    firstChild table path id = some c ↔ Child table path id c := by
  have hchild : ∀ {c : MountPoint}, firstChild table path id = some c → Child table path id c := by
    intro c hc
    obtain ⟨hmem, hmin⟩ := minByKey_mem hc
    simp only [List.mem_filter, Bool.and_eq_true, decide_eq_true_eq, suffix_isSome] at hmem hmin
    obtain ⟨hmem, hparent, hleads⟩ := hmem
    exact ⟨hmem, hparent, hleads, fun d hd hdparent hdleads =>
      (textLength_le_iff hleads hdleads).mp (hmin d ⟨hd, hdparent, hdleads⟩)⟩
  refine ⟨hchild, fun hc => ?_⟩
  cases hfound : firstChild table path id with
  | none => exact absurd hc.leads (firstChild_eq_none.mp hfound c hc.mem hc.parent)
  | some d =>
    have hd := hchild hfound
    -- Two prefixes of one length are equal.
    have hlength : c.target.length = d.target.length :=
      Nat.le_antisymm (hc.first d hd.mem hd.parent hd.leads) (hd.first c hc.mem hc.parent hc.leads)
    have htarget : c.target = d.target :=
      (List.prefix_of_prefix_length_le hc.leads hd.leads (Nat.le_of_eq hlength)).eq_of_length hlength
    rw [eq_of_pairs hpairs hc.mem hd.mem (hc.parent.trans hd.parent.symm) htarget]

theorem firstChild_eq_some (h : Native next table) :
    firstChild table path id = some c ↔ Child table path id c :=
  firstChild_iff h.pairs

/-! ## Walks -/

/-- The mounts a lookup of `path` passes through from the mount `id` on. -/
inductive Walk (table : List MountPoint) (path : Path) : Nat → List MountPoint → Prop
  | stop {id : Nat} (h : firstChild table path id = none) : Walk table path id []
  | step {id : Nat} {c : MountPoint} {rest : List MountPoint}
      (h : firstChild table path id = some c) (hrest : Walk table path c.id rest) :
      Walk table path id (c :: rest)

theorem Walk.unique {w' : List MountPoint}
    (h : Walk table path id w) (h' : Walk table path id w') : w = w' := by
  induction h generalizing w' with
  | stop h =>
    cases h' with
    | stop => rfl
    | step h' =>
      rw [h] at h'
      cases h'
  | step h hrest ih =>
    cases h' with
    | stop h' =>
      rw [h] at h'
      cases h'
    | step h' hrest' =>
      rw [h] at h'
      cases h'
      rw [ih hrest']

theorem firstChild_mem
    (h : firstChild table path id = some c) : c ∈ table ∧ c.parent = id ∧ c.target <+: path := by
  obtain ⟨hmem, -⟩ := minByKey_mem h
  simpa only [List.mem_filter, Bool.and_eq_true, decide_eq_true_eq, suffix_isSome] using hmem

variable {pre post : List MountPoint}

/-- A lookup goes on among the rows behind the mount it has come to.  `good` tells the ids
that it comes to. -/
theorem exists_walk_among (good : Nat → Prop)
    (hgood : ∀ p ∈ table, good p.parent → good p.id ∧ p.parent ≠ p.id)
    (horder : table.Pairwise fun p q => good q.parent → p.parent ≠ q.id) (path : Path)
    (htable : table = pre ++ post) (hid : good id)
    (hpre : ∀ p ∈ pre, p.parent ≠ id) :
    ∃ w : List MountPoint, Walk table path id w ∧ w.length ≤ post.length := by
  induction hlength : post.length using Nat.strongRecOn generalizing pre post id with
  | _ n ih =>
  cases hchild : firstChild table path id with
  | none => exact ⟨[], .stop hchild, Nat.zero_le _⟩
  | some c =>
    obtain ⟨hmem, hparent, -⟩ := firstChild_mem hchild
    have hpost : c ∈ post := by
      rcases List.mem_append.mp (htable ▸ hmem) with hmem | hmem
      · exact absurd hparent (hpre c hmem)
      · exact hmem
    have hc := hgood c hmem (hparent ▸ hid)
    obtain ⟨before, behind, rfl⟩ := List.append_of_mem hpost
    have hsplit : table = (pre ++ before ++ [c]) ++ behind := by
      rw [htable]
      simp
    have horder := horder
    rw [hsplit, List.append_assoc, List.pairwise_append] at horder
    have hfront : ∀ p ∈ pre ++ before ++ [c], p.parent ≠ c.id := by
      intro p hp
      rcases List.mem_append.mp hp with hp | hp
      · exact horder.2.2 p hp c (by simp) (hparent ▸ hid)
      · exact (List.mem_singleton.mp hp) ▸ hc.2
    simp only [List.length_append, List.length_cons] at hlength
    obtain ⟨w, hw, hle⟩ := ih behind.length (by omega) hsplit hc.1 hfront rfl
    exact ⟨c :: w, .step hchild hw, by simp only [List.length_cons]; omega⟩

theorem Native.exists_walk (h : Native next table) (path : Path) (htable : table = pre ++ post)
    (hpre : ∀ p ∈ pre, p.parent ≠ id) :
    ∃ w : List MountPoint, Walk table path id w ∧ w.length ≤ post.length := by
  apply exists_walk_among (fun _ => True) _ _ path htable trivial hpre
  · intro p hp _
    exact ⟨trivial, h.ordered p hp⟩
  · exact h.order.imp fun hpq _ => hpq

theorem Native.walk (h : Native next table) (path : Path) :
    ∃ w : List MountPoint, Walk table path ROOT_MOUNT_ID w ∧ w.length ≤ table.length :=
  h.exists_walk path (List.nil_append table).symm nofun

theorem Walk.visibleFrom (h : Walk table path id w) {turns : Nat} (hturns : w.length < turns)
    (selected : Option MountPoint) :
    Mount.visibleFrom table path turns id selected = .ok (w.getLast?.or selected) := by
  induction h generalizing turns selected with
  | stop h =>
    cases turns with
    | zero => simp at hturns
    | succ turns => simp [Mount.visibleFrom, h]
  | @step id c rest h hrest ih =>
    cases turns with
    | zero => simp at hturns
    | succ turns =>
      have hrec := ih (Nat.lt_of_succ_lt_succ hturns) (some c)
      simp only [Mount.visibleFrom, h, hrec, List.getLast?_cons]
      cases rest.getLast? <;> rfl

theorem Walk.visibleMount (hw : Walk table path ROOT_MOUNT_ID w) (hlength : w.length ≤ table.length)
    :
    Mount.visibleMount table path = .ok w.getLast? := by
  rw [Mount.visibleMount, hw.visibleFrom (Nat.lt_succ_of_le hlength), Option.or_none]

theorem Native.visibleMount (h : Native next table) (hw : Walk table path ROOT_MOUNT_ID w) :
    Mount.visibleMount table path = .ok w.getLast? := by
  obtain ⟨w', hw', hlength⟩ := h.walk path
  obtain rfl := hw.unique hw'
  exact hw.visibleMount hlength

theorem Walk.mem (h : Walk table path id w) : ∀ m ∈ w, m ∈ table ∧ m.target <+: path := by
  induction h with
  | stop h => exact nofun
  | @step id c rest h hrest ih =>
    intro m hm
    rcases List.mem_cons.mp hm with rfl | hm
    · obtain ⟨hmem, -, hleads⟩ := firstChild_mem h
      exact ⟨hmem, hleads⟩
    · exact ih m hm

/-- The id of the mount a walk from `id` ends at. -/
def endId (id : Nat) (w : List MountPoint) : Nat :=
  match w.getLast? with
  | some p => p.id
  | none => id

@[simp] theorem endId_cons (id : Nat) (c : MountPoint) (w : List MountPoint) :
    endId id (c :: w) = endId c.id w := by
  unfold endId
  rw [List.getLast?_cons]
  cases w.getLast? <;> rfl

theorem mountId_getLast? (w : List MountPoint) : mountId w.getLast? = endId ROOT_MOUNT_ID w := by
  unfold mountId endId
  cases w.getLast? <;> rfl

theorem Walk.stops (h : Walk table path id w) : firstChild table path (endId id w) = none := by
  induction h with
  | stop h => exact h
  | step h hrest ih => rwa [endId_cons]

/-! ## Translations -/

/-- The pathname behind a path whose lookup ends at `mount`. -/
def backing (path : Path) (mount : Option MountPoint) : Text :=
  match mount with
  | some m => join m.source (path.drop m.target.length)
  | none => path.text

theorem Native.translationAt (h : Native next table) (hw : Walk table path ROOT_MOUNT_ID w) :
    Mount.translationAt table path = .ok (some (backing path w.getLast?)) := by
  rw [Mount.translationAt, h.visibleMount hw]
  cases hlast : w.getLast? with
  | none => rfl
  | some m =>
    obtain ⟨hmem, hleads⟩ := hw.mem m (List.mem_of_getLast? hlast)
    have hnative : m.flags.has (MS_OVERLAY ||| MS_PROC ||| MS_TMPFS) = false := h.native m hmem
    have hsuffix : suffix path m.target = some (path.drop m.target.length) := if_pos hleads
    simp only [bind, Except.bind, hnative, Bool.false_eq_true, if_false, hsuffix]
    rfl

theorem text_append (path rest : Path) : Path.text (path ++ rest) = join path.text rest := by
  unfold join Path.text
  by_cases hrest : rest = []
  · simp [hrest]
  by_cases hpath : path = []
  · simp [hpath, hrest, Path.joined]
  have hjoined : path.joined ≠ [] := by
    obtain ⟨name, others, rfl⟩ := List.exists_cons_of_ne_nil hpath
    cases others with
    | nil => exact name.plain.1
    | cons name' others => simp [Path.joined]
  rw [if_neg hrest, if_neg (by simp [hjoined]), joined_append hpath hrest]
  rfl

theorem backing_append {mount : Option MountPoint}
    (h : ∀ m : MountPoint, mount = some m → m.target <+: path) (rest : Path) :
    backing (path ++ rest) mount = join (backing path mount) rest := by
  cases mount with
  | none => exact text_append path rest
  | some m =>
    have hlength := (h m rfl).length_le
    simp only [backing]
    rw [join_join, List.drop_append_of_le_length hlength]

end Kinakaze.Mount
