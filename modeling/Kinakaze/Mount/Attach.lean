import Kinakaze.Mount.Copies

/-!
# A table with a new attachment

* `Attached.native`: the new table is one of native mounts again.
* `Attached.outside`: lookups outside `target` are as before.
* `Attached.walk`: a lookup below `target` goes to the new attachment, and on from there as
  the old one below `source` went on.
-/

namespace Kinakaze.Mount

/-- `added` and the copies behind it are attached below `target`. -/
structure Attached (next last : Nat) (table : List MountPoint) (source target : Path)
    (copy : Nat → Option Nat) (added : MountPoint) (clones : List MountPoint) : Prop where
  native : Native next table
  start : FIRST_DYNAMIC_MOUNT_ID ≤ next
  id : added.id = next
  grows : next < last
  parent : added.parent ≠ 0 ∧ added.parent < next
  target_eq : added.target = target
  flags : added.flags.has VIRTUAL = false
  final : firstChild table target added.parent = none
  host : ∀ q ∈ table, q.id = added.parent → q.target <+: target
  fresh : ∀ i k : Nat, copy i = some k → next ≤ k
  injective : ∀ i j k : Nat, copy i = some k → copy j = some k → i = j
  bounds : ∀ a ∈ clones, next < a.id ∧ a.id < last
  sorted : clones.Pairwise fun a b => a.id < b.id
  sound : ∀ a ∈ clones, ∃ r ∈ table, CopyOf source target copy r a

variable {next last : Nat} {table clones : List MountPoint} {source target : Path}
  {copy : Nat → Option Nat} {added : MountPoint}

variable {p a : MountPoint} {q b : MountPoint}

theorem Native.eq_of_id (h : Native next table) (hp : p ∈ table)
    (hq : q ∈ table) (hid : p.id = q.id) : p = q := by
  by_contra hne
  have hsym : Std.Symm fun p q : MountPoint => p.id ≠ q.id := ⟨fun _ _ => Ne.symm⟩
  exact h.distinct.forall hp hq hne hid

section

variable (h : Attached next last table source target copy added clones)
include h

theorem Attached.old_lt (hp : p ∈ table) : p.id < next ∧ p.parent < next := by
  have hstart := h.start
  have hroot : ROOT_MOUNT_ID = 1 := rfl
  have hfirst : FIRST_DYNAMIC_MOUNT_ID = 64 := rfl
  rcases h.native.ids p hp with ⟨hparent, hid, -⟩ | ⟨-, hid, -, hparent⟩ <;> omega

theorem Attached.clone (ha : a ∈ clones) : next ≤ a.parent ∧ a.parent < a.id := by
  obtain ⟨r, -, hcopy⟩ := h.sound a ha
  exact ⟨h.fresh r.parent a.parent hcopy.parent, hcopy.older⟩

theorem Attached.below_target (ha : a ∈ added :: clones) : target <+: a.target := by
  rcases List.mem_cons.mp ha with rfl | ha
  · exact h.target_eq ▸ List.prefix_rfl
  · obtain ⟨r, -, hcopy⟩ := h.sound a ha
    obtain ⟨below, -, hbelow⟩ := hcopy.target_eq
    exact ⟨below, hbelow.symm⟩

theorem Attached.nested (ha : a ∈ clones) (hb : b ∈ clones) (hparent : a.parent = b.id) :
    b.target <+: a.target := by
  obtain ⟨r, hr, hcopy⟩ := h.sound a ha
  obtain ⟨r', hr', hcopy'⟩ := h.sound b hb
  have hids : r.parent = r'.id := h.injective _ _ b.id (hparent ▸ hcopy.parent) hcopy'.id
  obtain ⟨below, hbelow, htarget⟩ := hcopy.target_eq
  obtain ⟨below', hbelow', htarget'⟩ := hcopy'.target_eq
  have hinit := h.native.below r hr r' hr' hids
  rw [hbelow, hbelow', List.prefix_append_right_inj] at hinit
  rw [htarget, htarget', List.prefix_append_right_inj]
  exact hinit

theorem Attached.pairs (ha : a ∈ clones) (hb : b ∈ clones) (hparent : a.parent = b.parent)
    (htargets : a.target = b.target) : a.id = b.id := by
  obtain ⟨r, hr, hcopy⟩ := h.sound a ha
  obtain ⟨r', hr', hcopy'⟩ := h.sound b hb
  have hparents : r.parent = r'.parent :=
    h.injective _ _ b.parent (hparent ▸ hcopy.parent) hcopy'.parent
  obtain ⟨below, hbelow, htarget⟩ := hcopy.target_eq
  obtain ⟨below', hbelow', htarget'⟩ := hcopy'.target_eq
  have hsame : below = below' := by
    rw [htarget, htarget'] at htargets
    exact List.append_cancel_left htargets
  have heq : r = r' :=
    eq_of_pairs h.native.pairs hr hr' hparents (by rw [hbelow, hbelow', hsame])
  have hids := hcopy.id
  rw [heq, hcopy'.id] at hids
  exact (Option.some.inj hids).symm

theorem Attached.native' : Native last (table ++ added :: clones) := by
  have hstart := h.start
  have hfirst : FIRST_DYNAMIC_MOUNT_ID = 64 := rfl
  have hid := h.id
  have hgrows := h.grows
  obtain ⟨hparent, hparentLt⟩ := h.parent
  refine ⟨fun p hp => ?_, fun p hp => ?_, ?_, fun p hp => ?_, ?_, fun p hp q hq hpq => ?_, ?_⟩
  · rcases List.mem_append.mp hp with hp | hp
    · rcases h.native.ids p hp with hroot | ⟨hlow, hhigh, hne, hlt⟩
      · exact .inl hroot
      · exact .inr ⟨hlow, by omega, hne, by omega⟩
    · rcases List.mem_cons.mp hp with rfl | hp
      · exact .inr ⟨by omega, by omega, hparent, by omega⟩
      · have hclone := h.clone hp
        have hbounds := h.bounds p hp
        exact .inr ⟨by omega, by omega, by omega, by omega⟩
  · rcases List.mem_append.mp hp with hp | hp
    · exact h.native.native p hp
    · rcases List.mem_cons.mp hp with rfl | hp
      · exact h.flags
      · obtain ⟨r, hr, hcopy⟩ := h.sound p hp
        rw [hcopy.flags_eq]
        exact h.native.native r hr
  · refine List.pairwise_append.mpr ⟨h.native.distinct, List.pairwise_cons.mpr
      ⟨fun a ha => ?_, h.sorted.imp Nat.ne_of_lt⟩, fun p hp a ha => ?_⟩
    · have hbounds := h.bounds a ha
      omega
    · have hold := h.old_lt hp
      rcases List.mem_cons.mp ha with rfl | ha
      · omega
      · have hbounds := h.bounds a ha
        omega
  · rcases List.mem_append.mp hp with hp | hp
    · exact h.native.ordered p hp
    · rcases List.mem_cons.mp hp with rfl | hp
      · omega
      · have hclone := h.clone hp
        omega
  · refine List.pairwise_append.mpr ⟨h.native.order, List.pairwise_cons.mpr
      ⟨fun a ha => ?_, ?_⟩, fun p hp a ha => ?_⟩
    · have hbounds := h.bounds a ha
      omega
    · refine h.sorted.imp_of_mem fun {a b} ha _ hlt => ?_
      have hclone := h.clone ha
      omega
    · have hold := h.old_lt hp
      rcases List.mem_cons.mp ha with rfl | ha
      · omega
      · have hbounds := h.bounds a ha
        omega
  · rcases List.mem_append.mp hp with hp | hp
    · have holdp := h.old_lt hp
      rcases List.mem_append.mp hq with hq | hq
      · exact h.native.below p hp q hq hpq
      rcases List.mem_cons.mp hq with rfl | hq
      · omega
      · have hbounds := h.bounds q hq
        omega
    · rcases List.mem_cons.mp hp with rfl | hp
      · rcases List.mem_append.mp hq with hq | hq
        · rw [h.target_eq]
          exact h.host q hq hpq.symm
        · rcases List.mem_cons.mp hq with rfl | hq
          · omega
          · have hbounds := h.bounds q hq
            omega
      · have hclone := h.clone hp
        rcases List.mem_append.mp hq with hq | hq
        · have hold := h.old_lt hq
          omega
        rcases List.mem_cons.mp hq with rfl | hq
        · rw [h.target_eq]
          exact h.below_target hp
        · exact h.nested hp hq hpq
  · refine List.pairwise_append.mpr ⟨h.native.pairs, List.pairwise_cons.mpr
      ⟨fun a ha heq => ?_, ?_⟩, fun p hp a ha heq htarget => ?_⟩
    · have hclone := h.clone ha
      omega
    · refine h.sorted.imp_of_mem fun {a b} ha hb hlt heq htarget => ?_
      have hsame := h.pairs ha hb heq htarget
      omega
    · have hold := h.old_lt hp
      rcases List.mem_cons.mp ha with rfl | ha
      · exact firstChild_eq_none.mp h.final p hp heq (htarget.trans h.target_eq ▸ List.prefix_rfl)
      · have hclone := h.clone ha
        omega

end

/-! ## Lookups outside the target -/

variable {path rest : Path} {id : Nat} {w : List MountPoint}

theorem Attached.outside (h : Attached next last table source target copy added clones)
    (hpath : ¬target <+: path)
    (hw : Walk table path id w) : Walk (table ++ added :: clones) path id w := by
  have hsame : ∀ id : Nat,
      firstChild (table ++ added :: clones) path id = firstChild table path id := by
    intro id
    have hnone : (added :: clones).filter (fun point =>
        point.parent = id && (suffix path point.target).isSome) = [] := by
      refine List.filter_eq_nil_iff.mpr fun a ha hleads => hpath ?_
      simp only [Bool.and_eq_true, suffix_isSome] at hleads
      exact (h.below_target ha).trans hleads.2
    rw [firstChild, firstChild, List.filter_append, hnone, List.append_nil]
  induction hw with
  | stop hstop => exact .stop (by rw [hsame, hstop])
  | step hstep _ ih => exact .step (by rw [hsame, hstep]) ih

/-! ## Lookups below the target -/

variable {additions w' : List MountPoint}

/-- On the way to `path`, rows that are at or below `path` do not come in between. -/
theorem Child.extend (hadditions : ∀ a ∈ additions, path <+: a.target) {c : MountPoint}
    (h : Child table path id c) (rest : Path) : Child (table ++ additions) (path ++ rest) id c where
  mem := List.mem_append_left additions h.mem
  parent := h.parent
  leads := h.leads.trans (List.prefix_append path rest)
  first d hd hparent hleads := by
    have hshort := h.leads.length_le
    rcases List.mem_append.mp hd with hd | hd
    · rcases List.prefix_or_prefix_of_prefix hleads (List.prefix_append path rest) with
        hbelow | habove
      · exact h.first d hd hparent hbelow
      · exact Nat.le_trans hshort habove.length_le
    · exact Nat.le_trans hshort (hadditions d hd).length_le

theorem Walk.extend {last : Nat} (hnative : Native next table)
    (hnative' : Native last (table ++ additions)) (hadditions : ∀ a ∈ additions, path <+: a.target)
    (hw : Walk table path id w) (hw' : Walk (table ++ additions) (path ++ rest) (endId id w) w') :
    Walk (table ++ additions) (path ++ rest) id (w ++ w') := by
  induction hw with
  | stop h => exact hw'
  | @step id c w h hrest ih =>
    have hchild := ((firstChild_eq_some hnative).mp h).extend hadditions rest
    exact .step ((firstChild_eq_some hnative').mpr hchild) (ih (by rwa [endId_cons] at hw'))

section

variable (h : Attached next last table source target copy added clones)
include h

theorem Attached.enter (rest : Path) :
    firstChild (table ++ added :: clones) (target ++ rest) added.parent = some added := by
  refine (firstChild_eq_some h.native').mpr
    ⟨by simp, rfl, by rw [h.target_eq]; exact List.prefix_append target rest,
      fun d hd hparent hleads => ?_⟩
  rw [h.target_eq]
  rcases List.mem_append.mp hd with hd | hd
  · rcases List.prefix_or_prefix_of_prefix hleads (List.prefix_append target rest) with
      habove | hbelow
    · exact absurd habove (firstChild_eq_none.mp h.final d hd hparent)
    · exact hbelow.length_le
  · exact (h.below_target hd).length_le

theorem Attached.walk
    (hw : Walk table target ROOT_MOUNT_ID w) (hend : added.parent = endId ROOT_MOUNT_ID w)
    (hw' : Walk (table ++ added :: clones) (target ++ rest) next w') :
    Walk (table ++ added :: clones) (target ++ rest) ROOT_MOUNT_ID (w ++ added :: w') := by
  refine hw.extend h.native h.native' (fun a ha => h.below_target ha) (.step (c := added) ?_ ?_)
  · rw [← hend]
    exact h.enter rest
  · rw [h.id]
    exact hw'

theorem Attached.child_of_clone
    {k : Nat} (hcopy : copy id = some k) {d : MountPoint} (hd : d ∈ table ++ added :: clones)
    (hparent : d.parent = k) (hleads : d.target <+: target ++ rest) :
    ∃ r ∈ table, r.parent = id ∧ CopyOf source target copy r d ∧ r.target <+: source ++ rest := by
  have hk := h.fresh id k hcopy
  rcases List.mem_append.mp hd with hd | hd
  · have hold := h.old_lt hd
    omega
  rcases List.mem_cons.mp hd with rfl | hd
  · have hlt := h.parent.2
    omega
  obtain ⟨r, hr, hof⟩ := h.sound d hd
  have hrparent : r.parent = id := h.injective _ _ k (hparent ▸ hof.parent) hcopy
  obtain ⟨below, hbelow, htarget⟩ := hof.target_eq
  rw [htarget, List.prefix_append_right_inj] at hleads
  refine ⟨r, hr, hrparent, hof, ?_⟩
  rw [hbelow, List.prefix_append_right_inj]
  exact hleads

/-- From a copied mount on a lookup below `target` goes the way of the one below
`source`. -/
theorem Attached.mirror
    (hcomplete : ∀ r ∈ table, r.flags.has MS_UNBINDABLE = false → source <+: r.target →
      copy r.parent ≠ none → ∃ a ∈ clones, CopyOf source target copy r a)
    (hw : Walk table (source ++ rest) id w)
    (hbindable : ∀ r ∈ w, r.flags.has MS_UNBINDABLE = false) {k : Nat} (hk : copy id = some k)
    (hbelow : ∀ d ∈ table, d.parent = id → d.target <+: source ++ rest → source <+: d.target) :
    ∃ w' : List MountPoint, Walk (table ++ added :: clones) (target ++ rest) k w' ∧
      List.Forall₂ (CopyOf source target copy) w w' := by
  induction hw generalizing k with
  | stop hstop =>
    refine ⟨[], .stop (firstChild_eq_none.mpr fun d hd hparent hleads => ?_), .nil⟩
    obtain ⟨r, hr, hrparent, -, hrleads⟩ := h.child_of_clone hk hd hparent hleads
    exact firstChild_eq_none.mp hstop r hr hrparent hrleads
  | @step id c w hstep hrest ih =>
    have hc := (firstChild_eq_some h.native).mp hstep
    have hcbelow := hbelow c hc.mem hc.parent hc.leads
    obtain ⟨a, ha, hof⟩ := hcomplete c hc.mem (hbindable c (by simp)) hcbelow
      (by rw [hc.parent, hk]; nofun)
    have haparent : a.parent = k := by
      have hparent := hof.parent
      rw [hc.parent, hk] at hparent
      exact (Option.some.inj hparent).symm
    obtain ⟨below, hbelowc, htarget⟩ := hof.target_eq
    have haleads : a.target <+: target ++ rest := by
      have hleads := hc.leads
      rw [hbelowc, List.prefix_append_right_inj] at hleads
      rw [htarget, List.prefix_append_right_inj]
      exact hleads
    have hchild : firstChild (table ++ added :: clones) (target ++ rest) k = some a := by
      refine (firstChild_eq_some h.native').mpr ⟨by simp [ha], haparent, haleads,
        fun d hd hparent hleads => ?_⟩
      obtain ⟨r, hr, hrparent, hofd, hrleads⟩ := h.child_of_clone hk hd hparent hleads
      obtain ⟨below', hbelow', htarget'⟩ := hofd.target_eq
      have hfirst := hc.first r hr hrparent hrleads
      rw [hbelowc, hbelow'] at hfirst
      rw [htarget, htarget']
      simp only [List.length_append] at hfirst ⊢
      omega
    obtain ⟨w', hw', hforall⟩ := ih (fun r hr => hbindable r (by simp [hr])) hof.id
      fun d hd hparent hleads => hcbelow.trans (h.native.below d hd c hc.mem hparent)
    exact ⟨a :: w', .step hchild hw', .cons hof hforall⟩

end

theorem Attached.alone (h : Attached next last table source target copy added []) (rest : Path) :
    Walk (table ++ [added]) (target ++ rest) next [] := by
  refine .stop (firstChild_eq_none.mpr fun d hd hparent _ => ?_)
  rcases List.mem_append.mp hd with hd | hd
  · have hold := h.old_lt hd
    omega
  · obtain rfl := List.mem_singleton.mp hd
    have hlt := h.parent.2
    omega

end Kinakaze.Mount
