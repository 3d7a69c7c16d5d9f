import Kinakaze.Mount.Decoded
import Mathlib.Data.List.Induction

/-!
# Lookups component by component

`visible_mount` looks for the first attachment below each mount.  A walk of the path
crosses into the mounts that stand at each directory it comes to, and ends in the same mount.
-/

namespace Kinakaze.Mount

/-- At `path` the walk crosses from the mount `current` into the one mounted there, and
from that one on, until nothing is mounted on top. -/
inductive Crosses (table : List MountPoint) (path : Path) :
    Option MountPoint → Option MountPoint → Prop
  | stay {current : Option MountPoint}
      (h : ∀ c ∈ table, c.parent = mountId current → c.target ≠ path) :
      Crosses table path current current
  | enter {current last : Option MountPoint} {c : MountPoint} (hc : c ∈ table)
      (hparent : c.parent = mountId current) (htarget : c.target = path)
      (h : Crosses table path (some c) last) : Crosses table path current last

/-- The walk of a path from the root mount (`none`) at `/`, a component at a time. -/
inductive WalksTo (table : List MountPoint) : Path → Option MountPoint → Prop
  | root {m : Option MountPoint} (h : Crosses table [] none m) : WalksTo table [] m
  | component {path : Path} {name : Name} {m m' : Option MountPoint}
      (h : WalksTo table path m) (hcross : Crosses table (path ++ [name]) m m') :
      WalksTo table (path ++ [name]) m'

variable {table : List MountPoint} {path : Path} {current m m' : Option MountPoint}

theorem Crosses.unique (hforest : Forest table)
    (h : Crosses table path current m) (h' : Crosses table path current m') : m' = m := by
  induction h with
  | stay hstay =>
    cases h' with
    | stay => rfl
    | enter hc hparent htarget => exact absurd htarget (hstay _ hc hparent)
  | @enter current last c hc hparent htarget h ih =>
    cases h' with
    | stay hstay => exact absurd htarget (hstay _ hc hparent)
    | @enter _ _ d hd hdparent hdtarget h' =>
      have hsame : d = c := eq_of_pairs hforest.pairs hd hc (hdparent.trans hparent.symm)
        (hdtarget.trans htarget.symm)
      exact ih (hsame ▸ h')

theorem WalksTo.unique (hforest : Forest table)
    (h : WalksTo table path m) (h' : WalksTo table path m') : m' = m := by
  induction h generalizing m' with
  | root h =>
    generalize hpath : ([] : Path) = path at h'
    cases h' with
    | root h' => exact h.unique hforest h'
    | component => simp at hpath
  | @component path name m last h hcross ih =>
    generalize hpath : path ++ [name] = whole at h'
    cases h' with
    | root => simp at hpath
    | component h' hcross' =>
      obtain ⟨rfl, hname⟩ := List.append_inj' hpath rfl
      cases hname
      rw [ih h'] at hcross'
      exact hcross.unique hforest hcross'

variable {id : Nat} {w : List MountPoint}

theorem Walk.crosses (hforest : Forest table) (h : Walk table path id w)
    (hid : mountId current = id)
    (hat : ∀ c ∈ table, c.parent = id → c.target <+: path → c.target = path) :
    Crosses table path current (w.getLast?.or current) := by
  induction h generalizing current with
  | stop h =>
    apply Crosses.stay
    intro c hc hparent htarget
    exact firstChild_eq_none.mp h c hc (hparent.trans hid) (htarget ▸ List.prefix_rfl)
  | @step id c rest h hrest ih =>
    obtain ⟨hc, hparent, hleads⟩ := firstChild_mem h
    have htarget := hat c hc hparent hleads
    apply Crosses.enter hc (hparent.trans hid.symm) htarget
    have hdeep : ∀ d ∈ table, d.parent = c.id → d.target <+: path → d.target = path := by
      intro d hd hdparent hdleads
      have hbelow := hforest.below d hd c hc hdparent
      rw [htarget] at hbelow
      exact hdleads.eq_of_length (Nat.le_antisymm hdleads.length_le hbelow.length_le)
    have hcross := ih (rfl : mountId (some c) = c.id) hdeep
    rw [List.getLast?_cons]
    cases hlast : rest.getLast? with
    | none | some =>
      rw [hlast] at hcross
      exact hcross

theorem Walk.split_down {name : Name} {whole : List MountPoint}
    (hpairs : table.Pairwise fun p q => p.parent = q.parent → p.target ≠ q.target)
    (h : Walk table path id w) (hwhole : Walk table (path ++ [name]) id whole) :
    ∃ w' : List MountPoint, whole = w ++ w' ∧ Walk table (path ++ [name]) (endId id w) w' := by
  induction h generalizing whole with
  | stop h => exact ⟨whole, rfl, hwhole⟩
  | @step id c rest h hrest ih =>
    have hc := (firstChild_iff hpairs).mp h
    have hfirst : firstChild table (path ++ [name]) id = some c := by
      apply (firstChild_iff hpairs).mpr
      refine ⟨hc.mem, hc.parent, hc.leads.trans (List.prefix_append _ _), ?_⟩
      intro d hd hparent hleads
      by_cases hlong : d.target.length ≤ path.length
      · exact hc.first d hd hparent
          (List.prefix_of_prefix_length_le hleads (List.prefix_append _ _) hlong)
      · exact Nat.le_trans hc.leads.length_le (by omega)
    cases hwhole with
    | stop hnone =>
      rw [hfirst] at hnone
      cases hnone
    | step hsome hrest' =>
      rw [hfirst] at hsome
      cases hsome
      obtain ⟨w', rfl, hw'⟩ := ih hrest'
      refine ⟨w', rfl, ?_⟩
      rw [endId_cons]
      exact hw'

theorem WalksTo.visible (hforest : Forest table) (path : Path) :
    ∃ w : List MountPoint, Walk table path ROOT_MOUNT_ID w ∧ w.length ≤ table.length ∧
      WalksTo table path w.getLast? := by
  induction path using List.reverseRecOn with
  | nil =>
    obtain ⟨w, hw, hlength⟩ := hforest.exists_walk []
    refine ⟨w, hw, hlength, ?_⟩
    have hcross := hw.crosses hforest (rfl : mountId none = ROOT_MOUNT_ID)
      (fun c _ _ hleads => List.prefix_nil.mp hleads)
    rw [Option.or_none] at hcross
    exact .root hcross
  | append_singleton path name ih =>
    obtain ⟨w, hw, -, hwalks⟩ := ih
    obtain ⟨whole, hwhole, hlength⟩ := hforest.exists_walk (path ++ [name])
    refine ⟨whole, hwhole, hlength, ?_⟩
    obtain ⟨w', rfl, hw'⟩ := hw.split_down hforest.pairs hwhole
    -- nothing on the way to the directory is left, so what is left stands at the component
    have hat : ∀ c ∈ table, c.parent = endId ROOT_MOUNT_ID w → c.target <+: path ++ [name] →
        c.target = path ++ [name] := by
      intro c hc hparent hleads
      rcases List.prefix_concat_iff.mp hleads with htarget | hbefore
      · exact htarget
      · exact absurd hbefore (firstChild_eq_none.mp hw.stops c hc hparent)
    have hcross := hw'.crosses hforest (mountId_getLast? w) hat
    rw [List.getLast?_append]
    exact .component hwalks hcross

theorem Walk.covered (hpairs : table.Pairwise fun p q => p.parent = q.parent → p.target ≠ q.target)
    (h : Walk table path id w) {c d : MountPoint} (hc : c ∈ table) (hparent : c.parent = d.parent)
    (hover : c.target <+: d.target) (hne : c.target ≠ d.target) : d ∉ w := by
  induction h with
  | stop => simp
  | @step id e rest h hrest ih =>
    intro hmem
    rcases List.mem_cons.mp hmem with rfl | hmem
    · have hd := (firstChild_iff hpairs).mp h
      have hle := hd.first c hc (hparent.trans hd.parent) (hover.trans hd.leads)
      exact hne (hover.eq_of_length (Nat.le_antisymm hover.length_le hle))
    · exact ih hmem

/-- In every table that decodes, and in which the id of the root mount is the root row's alone,
`visible_mount` succeeds and selects the mount that the walk by components ends in.  Nothing is
mounted on the selected mount on the way to the path, and the selected mount stands below no
directory that another mount of its parent covers. -/
theorem visibleMount_walks {parsers : SourceParsers} {detached : Bool} {nextId : Nat}
    (hdecodes : Decodes parsers detached nextId table) (halone : RootAlone table) (path : Path) :
    ∃ m : Option MountPoint, visibleMount table path = .ok m ∧ WalksTo table path m ∧
      (∀ m', WalksTo table path m' → m' = m) ∧
      (∀ d ∈ table, d.parent = mountId m → ¬d.target <+: path) ∧
      ∀ c ∈ table, ∀ d ∈ table, c.parent = d.parent → c.target <+: d.target →
        c.target ≠ d.target → m ≠ some d := by
  have hforest := hdecodes.forest halone
  obtain ⟨w, hw, hlength, hwalks⟩ := WalksTo.visible hforest path
  refine ⟨w.getLast?, hw.visibleMount hlength, hwalks, fun m' h' => hwalks.unique hforest h', ?_, ?_⟩
  · intro d hd hparent
    rw [mountId_getLast?] at hparent
    exact firstChild_eq_none.mp hw.stops d hd hparent
  · intro c hc d _ hparent hover hne hlast
    exact hw.covered hforest.pairs hc hparent hover hne (List.mem_of_getLast? hlast)

def noVirtual : SourceParsers := ⟨fun _ => false, fun _ => false, fun _ => false⟩

def nameA : Name := ⟨['a'], by decide⟩
def nameB : Name := ⟨['b'], by decide⟩

/-- A bind mount of `/s`. -/
def bindRow (id parent : Nat) (target : Path) : MountPoint :=
  ⟨⟨0, 0, 0⟩, id, parent, ['/', 's'], target, MS_BIND⟩

/-- The mount over `/a` hides the one over `/a/b`. -/
theorem visibleMount_walks_covered : ∃ m : Option MountPoint,
      visibleMount [bindRow 64 1 [nameA, nameB], bindRow 65 1 [nameA]] [nameA, nameB] = .ok m ∧
        WalksTo [bindRow 64 1 [nameA, nameB], bindRow 65 1 [nameA]] [nameA, nameB] m ∧
        m ≠ some (bindRow 64 1 [nameA, nameB]) := by
  have hdecodes : Decodes noVirtual false 66
      [bindRow 64 1 [nameA, nameB], bindRow 65 1 [nameA]] := rfl
  obtain ⟨m, hvisible, hwalks, -, -, hcovered⟩ :=
    visibleMount_walks hdecodes (by decide) [nameA, nameB]
  exact ⟨m, hvisible, hwalks, hcovered (bindRow 65 1 [nameA]) (by decide)
    (bindRow 64 1 [nameA, nameB]) (by decide) rfl (by decide) (by decide)⟩

/-- A row may decode that is not the root row and still has its id.  Mounted on the root
mount it is its own parent, and a lookup below it never ends. -/
theorem visibleMount_loops : Decodes noVirtual false 64 [bindRow 1 1 [nameA]] ∧
      visibleMount [bindRow 1 1 [nameA]] [nameA] = .error EIO := by
  exact ⟨rfl, rfl⟩

end Kinakaze.Mount
