import Kinakaze.Mount.Propagation
import Mathlib.Data.List.Nodup
import Mathlib.Data.List.Perm.Subperm

/-!
# Where a propagated mount appears

A copy of a mount appears at the name it has below the shared parent.  It shows the same
directory when the destination shows what the parent shows, and another one otherwise.
-/

namespace Kinakaze.Mount

open Relation

/-! ## Downstream groups -/

/-- Some mount is a slave of `g` and shares with `h`. -/
def Feeds (points : List MountPoint) (g h : Nat) : Prop :=
  ∃ p ∈ points, p.metadata.master = g ∧ g ≠ 0 ∧ p.metadata.peer = h ∧ h ≠ 0

/-- The pass for one point. -/
def passGroup (groups : List Nat) (point : MountPoint) : List Nat :=
  if point.metadata.master ≠ 0 ∧ point.metadata.master ∈ groups ∧ point.metadata.peer ≠ 0 ∧
      point.metadata.peer ∉ groups then point.metadata.peer :: groups
  else groups

theorem passGroups_cons (p : MountPoint) (points : List MountPoint) (groups : List Nat) :
    passGroups (p :: points) groups = passGroups points (passGroup groups p) := rfl

variable {points : List MountPoint} {g groups groups' : Nat}

/-- Nothing is lost, what is new can be reached, and no group comes in twice. -/
theorem passGroups_spec {all : List MountPoint} (hall : ∀ p ∈ points, p ∈ all) {groups : List Nat}
    (hreach : ∀ h ∈ groups, ReflTransGen (Feeds all) g h) (hnodup : groups.Nodup)
    (hbound : ∀ h ∈ groups, h = g ∨ h ∈ all.map fun p => p.metadata.peer) :
    groups <:+ passGroups points groups ∧
      (∀ h ∈ passGroups points groups, ReflTransGen (Feeds all) g h) ∧
      (passGroups points groups).Nodup ∧
      (∀ h ∈ passGroups points groups, h = g ∨ h ∈ all.map fun p => p.metadata.peer) ∧
      ((passGroups points groups).length = groups.length → ∀ p ∈ points,
        p.metadata.master ≠ 0 → p.metadata.master ∈ groups → p.metadata.peer ≠ 0 →
          p.metadata.peer ∈ groups) := by
  induction points generalizing groups with
  | nil => exact ⟨List.suffix_refl _, hreach, hnodup, hbound, fun _ => nofun⟩
  | cons p points ih =>
    rw [passGroups_cons, passGroup]
    have hrest : ∀ q ∈ points, q ∈ all := fun q hq => hall q (by simp [hq])
    split
    · next hnew =>
      obtain ⟨hmaster, hmem, hpeer, hnot⟩ := hnew
      have hfeeds : Feeds all p.metadata.master p.metadata.peer :=
        ⟨p, hall p (by simp), rfl, hmaster, rfl, hpeer⟩
      have hreaches : ∀ h ∈ p.metadata.peer :: groups, ReflTransGen (Feeds all) g h :=
        List.forall_mem_cons.mpr ⟨(hreach _ hmem).tail hfeeds, hreach⟩
      have hbounds : ∀ h ∈ p.metadata.peer :: groups,
          h = g ∨ h ∈ all.map fun p => p.metadata.peer :=
        List.forall_mem_cons.mpr ⟨.inr (List.mem_map.mpr ⟨p, hall p (by simp), rfl⟩), hbound⟩
      obtain ⟨hsuffix, hreach', hnodup', hbound', -⟩ :=
        ih hrest hreaches (List.nodup_cons.mpr ⟨hnot, hnodup⟩) hbounds
      refine ⟨(List.suffix_cons _ _).trans hsuffix, hreach', hnodup', hbound', fun hlength => ?_⟩
      have hle := hsuffix.length_le
      simp only [List.length_cons] at hle
      omega
    · next hold =>
      obtain ⟨hsuffix, hreach', hnodup', hbound', hclosed⟩ := ih hrest hreach hnodup hbound
      refine ⟨hsuffix, hreach', hnodup', hbound', fun hlength q hq hmaster hmem hpeer => ?_⟩
      rcases List.mem_cons.mp hq with rfl | hq
      · by_contra hnot
        exact hold ⟨hmaster, hmem, hpeer, hnot⟩
      · exact hclosed hlength q hq hmaster hmem hpeer

theorem closeGroups_spec {turns : Nat} {groups : List Nat} (hg : g ∈ groups)
    (hreach : ∀ h ∈ groups, ReflTransGen (Feeds points) g h) (hnodup : groups.Nodup)
    (hbound : ∀ h ∈ groups, h = g ∨ h ∈ points.map fun p => p.metadata.peer)
    (hturns : points.length + 2 ≤ groups.length + turns) (h : Nat) :
    h ∈ closeGroups points turns groups ↔ ReflTransGen (Feeds points) g h := by
  induction turns generalizing groups with
  | zero =>
    -- More groups than there can be.
    have hsubset : groups ⊆ g :: points.map fun p => p.metadata.peer := fun h hh =>
      List.mem_cons.mpr (hbound h hh)
    have hlength := (List.Nodup.subperm hnodup hsubset).length_le
    simp only [List.length_cons, List.length_map] at hlength
    omega
  | succ turns ih =>
    obtain ⟨hsuffix, hreach', hnodup', hbound', hclosed⟩ :=
      passGroups_spec (fun p hp => hp) hreach hnodup hbound
    rw [closeGroups]
    split
    · next hlength =>
      refine ⟨hreach h, fun hpath => ?_⟩
      clear ih
      induction hpath with
      | refl => exact hg
      | tail _ hfeeds ihpath =>
        obtain ⟨p, hp, hmaster, hne, hpeer, hpeer'⟩ := hfeeds
        have hmem := hclosed hlength p hp (hmaster ▸ hne) (hmaster ▸ ihpath) (hpeer ▸ hpeer')
        exact hpeer ▸ hmem
    · next hlength =>
      have hle := hsuffix.length_le
      exact ih (hsuffix.subset hg) hreach' hnodup' hbound' (by omega)

theorem mem_downstreamGroups (tables : List Namespace) (g h : Nat) :
    h ∈ downstreamGroups tables g ↔ ReflTransGen (Feeds (allPoints tables)) g h := by
  refine closeGroups_spec (List.mem_singleton_self g) (fun h hh => ?_) (List.nodup_singleton g)
    (fun h hh => .inl (List.mem_singleton.mp hh)) (by simp only [List.length_singleton]; omega) h
  rw [List.mem_singleton.mp hh]

variable {tables tables' : List Namespace} {d : Destination}

/-- The mounts an event below a mount of group `g` reaches. -/
theorem mem_destinations :
    d ∈ destinations tables g ↔ ∃ table : Namespace, tables[d.index]? = some table ∧
      d.point ∈ table.points ∧
      (d.slave = false ∧ d.point.metadata.peer = g ∨
        d.slave = true ∧ d.point.metadata.peer ≠ g ∧ d.point.metadata.master ≠ 0 ∧
          ReflTransGen (Feeds (allPoints tables)) g d.point.metadata.master) := by
  simp only [destinations, List.mem_flatMap, List.mem_filterMap, Prod.exists,
    List.mem_zipIdx_iff_getElem?, ← mem_downstreamGroups]
  have hat : ∀ (index : Nat) (p : MountPoint),
      destinationAt (downstreamGroups tables g) g index p = some d ↔
        d.index = index ∧ d.point = p ∧ (d.slave = false ∧ p.metadata.peer = g ∨
          d.slave = true ∧ p.metadata.peer ≠ g ∧ p.metadata.master ≠ 0 ∧
            p.metadata.master ∈ downstreamGroups tables g) := by
    intro index p
    obtain ⟨dindex, dpoint, dslave⟩ := d
    rw [destinationAt]
    split
    · next hpeer => cases dslave <;> simp [hpeer, eq_comm]
    · next hpeer =>
      split
      · next hmaster => cases dslave <;> simp [hpeer, hmaster, eq_comm]
      · next hmaster =>
        simp only [reduceCtorEq, hpeer, and_false, false_or, false_iff, not_and]
        intro _ _ _ _ hne hpath
        exact hmaster ⟨hne, hpath⟩
  constructor
  · rintro ⟨table, index, htable, p, hp, hd⟩
    obtain ⟨rfl, rfl, hkind⟩ := (hat index p).mp hd
    exact ⟨table, htable, hp, hkind⟩
  · rintro ⟨table, htable, hp, hkind⟩
    exact ⟨table, d.index, htable, d.point, hp, (hat d.index d.point).mpr ⟨rfl, rfl, hkind⟩⟩

/-! ## Copies -/

/-- A row copied to the same name below the destination. -/
structure CopiedRow (parent : MountPoint) (d : Destination) (source copy : MountPoint) : Prop where
  source_eq : copy.source = source.source
  target_eq : ∃ below : Path, source.target = parent.target ++ below ∧
    copy.target = d.point.target ++ below

variable {parent p : MountPoint} {known : SlaveGroups} {subtree before : List MountPoint}

theorem copySubtree_ok {copies : List MountPoint} {translated : List (Nat × Nat)}
    {table table' : Namespace}
    (h : copySubtree parent known d subtree translated table = .ok (table', copies)) :
    table'.points = table.points ++ copies ∧ List.Forall₂ (CopiedRow parent d) subtree copies := by
  induction subtree generalizing translated table copies with
  | nil =>
    cases h
    exact ⟨(List.append_nil _).symm, .nil⟩
  | cons source rest ih =>
    simp only [copySubtree, Library.bind_ok, Prod.exists] at h
    obtain ⟨id, next, -, h⟩ := h
    split at h
    · next copied below _ hbelow =>
      simp only [Library.bind_ok, Prod.exists] at h
      obtain ⟨metadata, flags, -, table₁, copies₁, hrest, h⟩ := h
      cases h
      obtain ⟨hpoints, hcopies⟩ := ih hrest
      rw [suffix_eq_some] at hbelow
      refine ⟨?_, .cons ⟨rfl, below, hbelow, rfl⟩ hcopies⟩
      rw [hpoints, List.append_assoc]
      rfl
    · cases h

/-- What is added to the rows of one namespace. -/
def addedAt (index : Nat) (deliveries : List Delivery) : List MountPoint :=
  (deliveries.filter fun x => x.destination.index = index).flatMap Delivery.copies

variable {deliveries : List Delivery} {targets : List Destination}

/-- Each destination but the event itself gets one copy, behind the rows it has. -/
theorem deliver_ok (h : deliver parent known subtree targets tables = .ok (tables', deliveries)) :
    deliveries.map Delivery.destination = targets.filter (fun d => !d.isSelf parent) ∧
      (∀ x ∈ deliveries, List.Forall₂ (CopiedRow parent x.destination) subtree x.copies) ∧
      ∀ index : Nat, tables'[index]?.map Namespace.points =
        tables[index]?.map fun table => table.points ++ addedAt index deliveries := by
  induction targets generalizing tables deliveries with
  | nil =>
    cases h
    refine ⟨rfl, nofun, fun index => ?_⟩
    simp [addedAt]
  | cons d others ih =>
    rw [deliver] at h
    split at h
    · next hself =>
      obtain ⟨hmap, hcopies, hpoints⟩ := ih h
      refine ⟨?_, hcopies, hpoints⟩
      rw [List.filter_cons, hself]
      exact hmap
    · next hself =>
      split at h
      · cases h
      · next table htable =>
        simp only [Library.bind_ok, Prod.exists] at h
        obtain ⟨table₁, copies, hcopy, tables₁, deliveries₁, hrest, h⟩ := h
        cases h
        obtain ⟨hpoints₁, hforall⟩ := copySubtree_ok hcopy
        obtain ⟨hmap, hcopies, hpoints⟩ := ih hrest
        refine ⟨?_, List.forall_mem_cons.mpr ⟨hforall, hcopies⟩, fun index => ?_⟩
        · rw [List.filter_cons, List.map_cons, hmap]
          simp [hself]
        · rw [hpoints index, List.getElem?_set]
          by_cases hindex : d.index = index
          · subst hindex
            have hlt := (List.getElem?_eq_some_iff.mp htable).1
            simp only [if_true, hlt, htable, Option.map_some, hpoints₁, addedAt,
              List.filter_cons, decide_true, List.flatMap_cons, List.append_assoc]
          · simp only [hindex, if_false, addedAt, List.filter_cons, decide_false,
              Bool.false_eq_true]

/-! ## Removals -/

/-- The row is at or below the attachment that a removal found. -/
def Removal.Takes (x : Removal) (p : MountPoint) : Prop :=
  ∃ q : MountPoint, x.gone = some q ∧ p.id ∈ descendants x.points [q.id]

theorem mem_afterRemoval {selected : Option MountPoint} : p ∈ afterRemoval points selected ↔
      p ∈ points ∧ ∀ q : MountPoint, selected = some q → p.id ∉ descendants points [q.id] := by
  cases selected with
  | none | some => simp [afterRemoval]

/-- One removal at each destination but the event itself, and nothing else goes. -/
theorem removeAt_ok {rest : Path} {removals : List Removal}
    (h : removeAt parent rest targets tables = .ok (tables', removals)) :
    removals.map Removal.destination = targets.filter (fun d => !d.isSelf parent) ∧
      (∀ x ∈ removals, x.gone = attachmentAt x.points x.destination.point rest) ∧
      ∀ index : Nat, tables[index]? = none ∧ tables'[index]? = none ∨
        ∃ table table' : Namespace, tables[index]? = some table ∧ tables'[index]? = some table' ∧
          (∀ p ∈ table'.points, p ∈ table.points) ∧
          ∀ p ∈ table.points, p ∈ table'.points ∨
            ∃ x ∈ removals, x.destination.index = index ∧ x.Takes p := by
  induction targets generalizing tables removals with
  | nil =>
    cases h
    refine ⟨rfl, nofun, fun index => ?_⟩
    cases htable : tables'[index]? with
    | none => exact .inl ⟨rfl, rfl⟩
    | some table => exact .inr ⟨table, table, rfl, rfl, fun _ => id, fun _ => .inl⟩
  | cons d others ih =>
    rw [removeAt] at h
    split at h
    · next hself =>
      obtain ⟨hmap, hgone, hrows⟩ := ih h
      refine ⟨?_, hgone, hrows⟩
      rw [List.filter_cons, hself]
      exact hmap
    · next hself =>
      split at h
      · cases h
      · next table htable =>
        simp only at h
        cases hrest : removeAt parent rest others (tables.set d.index
            ⟨afterRemoval table.points (attachmentAt table.points d.point rest), table.next⟩) with
        | error e =>
          rw [hrest] at h
          cases h
        | ok result =>
          rw [hrest] at h
          cases h
          obtain ⟨hmap, hgone, hrows⟩ := ih hrest
          refine ⟨?_, List.forall_mem_cons.mpr ⟨rfl, hgone⟩, fun index => ?_⟩
          · rw [List.filter_cons, List.map_cons, hmap]
            simp [hself]
          · have hindex := hrows index
            rw [List.getElem?_set] at hindex
            by_cases heq : d.index = index
            · subst heq
              have hlt := (List.getElem?_eq_some_iff.mp htable).1
              rw [if_pos rfl, if_pos hlt] at hindex
              rcases hindex with ⟨hnone, -⟩ | ⟨table₁, table', h₁, htable', hsub, hkept⟩
              · cases hnone
              · cases h₁
                refine .inr ⟨table, table', htable, htable', fun p hp =>
                  (mem_afterRemoval.mp (hsub p hp)).1, fun p hp => ?_⟩
                by_cases hgone' : ∃ q : MountPoint,
                    attachmentAt table.points d.point rest = some q ∧
                      p.id ∈ descendants table.points [q.id]
                · exact .inr ⟨_, List.mem_cons_self, rfl, hgone'⟩
                have hmem : p ∈ afterRemoval table.points
                    (attachmentAt table.points d.point rest) :=
                  mem_afterRemoval.mpr ⟨hp, fun q hq hin => hgone' ⟨q, hq, hin⟩⟩
                rcases hkept p hmem with hin | ⟨x, hx, hxindex, htakes⟩
                · exact .inl hin
                · exact .inr ⟨x, by simp [hx], hxindex, htakes⟩
            · rw [if_neg heq] at hindex
              rcases hindex with hnone | ⟨table₁, table', h₁, htable', hsub, hkept⟩
              · exact .inl hnone
              refine .inr ⟨table₁, table', h₁, htable', hsub, fun p hp => ?_⟩
              rcases hkept p hp with hin | ⟨x, hx, hxindex, htakes⟩
              · exact .inl hin
              · exact .inr ⟨x, by simp [hx], hxindex, htakes⟩

/-! ## One event -/

/-- The path `r` below the destination shows the directory of the mountpoint. -/
def Event.Shows (e : Event) (d : Destination) (r : Path) : Prop :=
  join d.point.source r = join e.parent.source e.rest

/-- The copies of the new mounts stand as if the mountpoint were at `r`. -/
def Event.PlacedAt (e : Event) (d : Destination) (r : Path) (subtree copies : List MountPoint) :
    Prop :=
  List.Forall₂ (fun source copy => copy.source = source.source ∧ ∀ below : Path,
    source.target = e.parent.target ++ e.rest ++ below →
      copy.target = d.point.target ++ r ++ below) subtree copies

/-- What the event did at each receiver, it did where the directory of the mountpoint is. -/
def Event.FollowsDirectory (e : Event) : Prop :=
  match e.outcome with
  | .unmounted removals => ∀ x ∈ removals, ∀ p : MountPoint, x.gone = some p ↔
      ∃ r : Path, e.Shows x.destination r ∧ attachmentAt x.points x.destination.point r = some p
  | .mounted subtree deliveries => ∀ x ∈ deliveries,
      (∀ r : Path, e.Shows x.destination r → e.PlacedAt x.destination r subtree x.copies) ∧
      ((∀ r : Path, ¬e.Shows x.destination r) → x.copies = [])

/-- The receivers show what the parent of the event shows, or an unmount finds nothing
there. -/
def Event.SameDirectory (e : Event) : Prop :=
  match e.outcome with
  | .unmounted removals => ∀ x ∈ removals, x.destination.point.source = e.parent.source ∨
      ∀ r : Path, r = e.rest ∨ e.Shows x.destination r →
        attachmentAt x.points x.destination.point r = none
  | .mounted _ _ => ∀ d ∈ e.receivers, d.isSelf e.parent = false → d.point.source = e.parent.source

/-- The receivers are the peers of the parent and the slaves downstream, and each of them
but the parent itself got the event once. -/
structure Event.ReachesOnce (e : Event) : Prop where
  receivers : ∀ d : Destination, d ∈ e.receivers ↔
    (∃ table : Namespace, e.tables[d.index]? = some table ∧ d.point ∈ table.points ∧
      (d.slave = false ∧ d.point.metadata.peer = e.parent.metadata.peer ∨
        d.slave = true ∧ d.point.metadata.peer ≠ e.parent.metadata.peer ∧
          d.point.metadata.master ≠ 0 ∧ ReflTransGen (Feeds (allPoints e.tables))
            e.parent.metadata.peer d.point.metadata.master)) ∧
      (d.index ≠ 0 ∨ d.point.id ∉ e.own)
  once : match e.outcome with
    | .unmounted removals => removals.map Removal.destination =
        e.receivers.filter (fun d => !d.isSelf e.parent)
    | .mounted _ deliveries => deliveries.map Delivery.destination =
        e.receivers.filter (fun d => !d.isSelf e.parent)

/-- What the loops make of an event. -/
def Event.Made (e : Event) : Prop :=
  match e.outcome with
  | .unmounted removals => ∀ x ∈ removals, x.gone = attachmentAt x.points x.destination.point e.rest
  | .mounted subtree deliveries =>
    (∀ x ∈ deliveries, List.Forall₂ (CopiedRow e.parent x.destination) subtree x.copies) ∧
      ∃ root ∈ subtree, e.rest = root.target.drop e.parent.target.length

/-- The sources of the mounts concerned are not empty. -/
def Event.Sourced (e : Event) : Prop :=
  e.parent.source ≠ [] ∧ ∀ d ∈ e.receivers, d.point.source ≠ []

theorem attachmentAt_target {mount : MountPoint} {r : Path}
    (h : attachmentAt points mount r = some p) : p.target = mount.target ++ r := by
  have hfound := List.find?_some h
  simp only [Bool.and_eq_true, decide_eq_true_eq] at hfound
  exact hfound.2

theorem forall₂_both {α β : Type} {R S : α → β → Prop} {l : List α} {l' : List β}
    (h : List.Forall₂ R l l') (h' : List.Forall₂ S l l') {a : α} (ha : a ∈ l) :
    ∃ b : β, R a b ∧ S a b := by
  induction h with
  | nil => cases ha
  | @cons x y l l' hxy hrest ih =>
    cases h' with
    | cons hxy' hrest' =>
      rcases List.mem_cons.mp ha with rfl | ha
      · exact ⟨y, hxy, hxy'⟩
      · exact ih hrest' ha

theorem Event.follows_iff {e : Event} (hmade : e.Made) (honce : e.ReachesOnce)
    (hsourced : e.Sourced) : e.FollowsDirectory ↔ e.SameDirectory := by
  obtain ⟨tables, own, shared, parent, rest, receivers, outcome⟩ := e
  have hsame : ∀ d ∈ receivers, join d.point.source rest = join parent.source rest →
      d.point.source = parent.source := fun d hd heq =>
    join_left_injective (hsourced.2 d hd) hsourced.1 heq
  cases outcome with
  | unmounted removals =>
    have hmem : ∀ x ∈ removals, x.destination ∈ receivers := fun x hx => by
      have hmap : x.destination ∈ removals.map Removal.destination := List.mem_map_of_mem hx
      rw [honce.once] at hmap
      exact (List.mem_filter.mp hmap).1
    constructor
    · intro hfollows x hx
      by_cases heq : x.destination.point.source = parent.source
      · exact .inl heq
      refine .inr fun r hr => ?_
      have hgone := hmade x hx
      cases hat : attachmentAt x.points x.destination.point r with
      | none => rfl
      | some p =>
        have hshown : x.gone = some p → join x.destination.point.source r =
            join parent.source rest → False := by
          intro hfound hshows
          have htarget := attachmentAt_target hat
          have hrest := attachmentAt_target (hgone.symm.trans hfound)
          obtain rfl := List.append_cancel_left (htarget.symm.trans hrest)
          exact heq (hsame x.destination (hmem x hx) hshows)
        rcases hr with rfl | hshows
        · -- The attachment of that name went, so its name shows the mountpoint.
          have hfound := hgone.trans hat
          obtain ⟨r', hshows, hat'⟩ := (hfollows x hx p).mp hfound
          have htarget := attachmentAt_target hat
          obtain rfl := List.append_cancel_left ((attachmentAt_target hat').symm.trans htarget)
          exact (hshown hfound hshows).elim
        · exact (hshown ((hfollows x hx p).mpr ⟨r, hshows, hat⟩) hshows).elim
    · intro hsamedir x hx p
      rw [hmade x hx]
      rcases hsamedir x hx with heq | hnone
      · constructor
        · intro hat
          exact ⟨rest, by simp only [Event.Shows, heq], hat⟩
        · rintro ⟨r, hshows, hat⟩
          simp only [Event.Shows, heq] at hshows
          rw [join_right_injective hshows] at hat
          exact hat
      · constructor
        · intro hat
          rw [hnone rest (.inl rfl)] at hat
          cases hat
        · rintro ⟨r, hshows, hat⟩
          rw [hnone r (.inr hshows)] at hat
          cases hat
  | mounted subtree deliveries =>
    obtain ⟨hcopies, root, hroot, hrest⟩ := hmade
    constructor
    · intro hfollows d hd hself
      have hmem : d ∈ deliveries.map Delivery.destination := by
        rw [honce.once]
        exact List.mem_filter.mpr ⟨hd, by simp [hself]⟩
      obtain ⟨x, hx, rfl⟩ := List.mem_map.mp hmem
      obtain ⟨hplaced, hnothing⟩ := hfollows x hx
      by_cases hex : ∃ r : Path, join x.destination.point.source r = join parent.source rest
      · obtain ⟨r, hshows⟩ := hex
        obtain ⟨copy, hcopied, -, hat⟩ :=
          forall₂_both (hcopies x hx) (hplaced r hshows) hroot
        obtain ⟨below, hbelow, htarget⟩ := hcopied.target_eq
        have hname : rest = below := by
          have hdrop : rest = root.target.drop parent.target.length := hrest
          rw [hdrop, hbelow, List.drop_left]
        have hplace := hat [] (by rw [hbelow, hname, List.append_nil])
        rw [htarget, List.append_nil, ← hname] at hplace
        obtain rfl := List.append_cancel_left hplace
        exact hsame x.destination hd hshows
      · have hnil := hnothing fun r hshows => hex ⟨r, hshows⟩
        have hforall := hcopies x hx
        rw [hnil] at hforall
        cases hforall
        cases hroot
    · intro hsamedir x hx
      have hmem : x.destination ∈ deliveries.map Delivery.destination :=
        List.mem_map_of_mem hx
      rw [honce.once] at hmem
      obtain ⟨hreceiver, hself⟩ := List.mem_filter.mp hmem
      have heq := hsamedir x.destination hreceiver (by simpa using hself)
      constructor
      · intro r hshows
        simp only [Event.Shows, heq] at hshows
        obtain rfl := join_right_injective hshows
        refine (hcopies x hx).imp fun source copy hcopied => ⟨hcopied.source_eq,
          fun below hsource => ?_⟩
        obtain ⟨below', hbelow', htarget⟩ := hcopied.target_eq
        rw [hbelow', List.append_assoc] at hsource
        rw [htarget, List.append_cancel_left hsource, List.append_assoc]
      · intro hnothing
        exact absurd (by simp only [Event.Shows, heq]) (hnothing rest)

/-! ## The rows of the namespaces -/

def Event.Removed (e : Event) (index : Nat) (p : MountPoint) : Prop :=
  match e.outcome with
  | .unmounted removals => ∃ x ∈ removals, x.destination.index = index ∧ x.Takes p
  | .mounted _ _ => False

def Event.Copied (e : Event) (index : Nat) (p : MountPoint) : Prop :=
  match e.outcome with
  | .unmounted _ => False
  | .mounted _ deliveries => ∃ x ∈ deliveries, x.destination.index = index ∧ p ∈ x.copies

/-- The row is one of the new mounts, in the namespace they were made in. -/
def Event.OwnRow (e : Event) (index : Nat) (p : MountPoint) : Prop :=
  index = 0 ∧ p.id ∈ e.shared

/-- Rows go where a receiver has an unmount, come where one has a mount, and change only
in becoming shared with the mount that is made. -/
structure KeptRows (events : List Event) (index : Nat) (points points' : List MountPoint) :
    Prop where
  old : ∀ p ∈ points, p ∈ points' ∨ ∃ e ∈ events, e.Removed index p ∨ e.OwnRow index p
  new : ∀ p ∈ points', p ∈ points ∨ ∃ e ∈ events, e.Copied index p ∨ e.OwnRow index p

def Kept (events : List Event) (tables tables' : List Namespace) : Prop :=
  ∀ index : Nat, tables[index]? = none ∧ tables'[index]? = none ∨
    ∃ table table' : Namespace, tables[index]? = some table ∧ tables'[index]? = some table' ∧
      KeptRows events index table.points table'.points

theorem Kept.refl (tables : List Namespace) : Kept [] tables tables := by
  intro index
  cases htable : tables[index]? with
  | none => exact .inl ⟨rfl, rfl⟩
  | some table => exact .inr ⟨table, table, rfl, rfl, fun _ => .inl, fun _ => .inl⟩

variable {events : List Event}

theorem Kept.trans {events' : List Event} {tables'' : List Namespace}
    (h : Kept events tables tables') (h' : Kept events' tables' tables'') :
    Kept (events ++ events') tables tables'' := by
  intro index
  rcases h index with ⟨hnone, hnone'⟩ | ⟨table, table', htable, htable', hrows⟩
  · rcases h' index with ⟨-, hnone''⟩ | ⟨table', table'', htable', -, -⟩
    · exact .inl ⟨hnone, hnone''⟩
    · rw [hnone'] at htable'
      cases htable'
  rcases h' index with ⟨hnone', -⟩ | ⟨table₁, table'', h₁, htable'', hrows'⟩
  · rw [htable'] at hnone'
    cases hnone'
  rw [htable'] at h₁
  cases h₁
  refine .inr ⟨table, table'', htable, htable'', fun p hp => ?_, fun p hp => ?_⟩
  · rcases hrows.old p hp with hin | ⟨e, he, hkind⟩
    · rcases hrows'.old p hin with hin' | ⟨e, he, hkind⟩
      · exact .inl hin'
      · exact .inr ⟨e, List.mem_append_right events he, hkind⟩
    · exact .inr ⟨e, List.mem_append_left events' he, hkind⟩
  · rcases hrows'.new p hp with hin | ⟨e, he, hkind⟩
    · rcases hrows.new p hin with hin' | ⟨e, he, hkind⟩
      · exact .inl hin'
      · exact .inr ⟨e, List.mem_append_left events' he, hkind⟩
    · exact .inr ⟨e, List.mem_append_right events he, hkind⟩

/-- The sources of all mounts are paths, and so not empty. -/
def SourcedTables (tables : List Namespace) : Prop :=
  ∀ (index : Nat) (table : Namespace), tables[index]? = some table →
    ∀ p ∈ table.points, p.source ≠ []

/-- What holds of an event that the loops have made. -/
structure Event.Lawful (e : Event) : Prop where
  made : e.Made
  reaches : e.ReachesOnce
  sourced : e.Sourced

theorem sourced_destinations (h : SourcedTables tables) (hd : d ∈ destinations tables g) :
    d.point.source ≠ [] := by
  obtain ⟨table, htable, hmem, -⟩ := mem_destinations.mp hd
  exact h d.index table htable d.point hmem

theorem removeRoots_ok {roots : List MountPoint} (hbefore : ∀ p ∈ before, p.source ≠ [])
    (htables : SourcedTables tables) (h : removeRoots before roots tables = .ok (tables', events)) :
    SourcedTables tables' ∧ Kept events tables tables' ∧ ∀ e ∈ events, e.Lawful := by
  induction roots generalizing tables events with
  | nil =>
    cases h
    exact ⟨htables, .refl tables', nofun⟩
  | cons root roots ih =>
    rw [removeRoots] at h
    split at h
    · exact ih htables h
    · next parent hparent =>
      split at h
      · cases h
      · next rest hrest =>
        simp only [Library.bind_ok, Prod.exists] at h
        obtain ⟨tables₁, removals, hremove, tables₂, events₂, hothers, h⟩ := h
        cases h
        obtain ⟨honce, hgone, hrows⟩ := removeAt_ok hremove
        have hsourced : SourcedTables tables₁ := by
          intro index table htable p hp
          rcases hrows index with ⟨-, hnone⟩ | ⟨table₀, table', h₀, h₁, hsub, -⟩
          · rw [hnone] at htable
            cases htable
          · rw [h₁] at htable
            cases htable
            exact htables index table₀ h₀ p (hsub p hp)
        obtain ⟨hsourced', hkept, hlawful⟩ := ih hsourced hothers
        refine ⟨hsourced', ?_, List.forall_mem_cons.mpr ⟨⟨hgone, ⟨fun d => ?_, honce⟩,
          hbefore parent (List.mem_of_find?_eq_some hparent),
          fun d hd => sourced_destinations htables hd⟩, hlawful⟩⟩
        · have hstep : Kept [⟨tables, [], [], parent, rest,
              destinations tables parent.metadata.peer, .unmounted removals⟩]
              tables tables₁ := by
            intro index
            rcases hrows index with hnone | ⟨table, table', h₀, h₁, hsub, hleft⟩
            · exact .inl hnone
            refine .inr ⟨table, table', h₀, h₁, fun p hp => ?_, fun p hp =>
              .inl (hsub p hp)⟩
            rcases hleft p hp with hin | hgone
            · exact .inl hin
            · exact .inr ⟨_, List.mem_singleton_self _, .inl hgone⟩
          exact hstep.trans hkept
        · simp only [mem_destinations, List.not_mem_nil, not_false_eq_true, or_true, and_true]

/-! ## Mounts of an update -/

theorem forall₂_exists_right {α β : Type} {R : α → β → Prop} {l : List α} {l' : List β}
    (h : List.Forall₂ R l l') {a : α} (ha : a ∈ l) : ∃ b ∈ l', R a b := by
  induction h with
  | nil => cases ha
  | @cons x y l l' hxy hrest ih =>
    rcases List.mem_cons.mp ha with rfl | ha
    · exact ⟨y, by simp, hxy⟩
    · obtain ⟨b, hb, hab⟩ := ih ha
      exact ⟨b, by simp [hb], hab⟩

/-- A row and what it is when the mounts `ids` have become shared. -/
structure SharedRow (ids : List Nat) (p q : MountPoint) : Prop where
  id : q.id = p.id
  target : q.target = p.target
  source : q.source = p.source
  other : p.id ∉ ids → q = p

variable {ids added : List Nat}

theorem shareSubtree_ok {points' : List MountPoint}
    (h : shareSubtree ids points groups = .ok (points', groups')) :
    List.Forall₂ (SharedRow ids) points points' := by
  induction points generalizing groups points' with
  | nil =>
    cases h
    exact .nil
  | cons p rest ih =>
    rw [shareSubtree] at h
    split at h
    · next hmem =>
      simp only [Library.bind_ok, Prod.exists] at h
      obtain ⟨peer, groups₁, -, rest', groups₂, hrest, h⟩ := h
      cases h
      exact .cons ⟨rfl, rfl, rfl, fun hnot => absurd hmem hnot⟩ (ih hrest)
    · simp only [Library.bind_ok, Prod.exists] at h
      obtain ⟨rest', groups₂, hrest, h⟩ := h
      cases h
      exact .cons ⟨rfl, rfl, rfl, fun _ => rfl⟩ (ih hrest)

theorem subset_descendants (rows : List MountPoint) {x : Nat} (h : x ∈ ids) :
    x ∈ descendants rows ids := by
  induction rows generalizing ids with
  | nil => exact h
  | cons p rows ih =>
    rw [descendants]
    split
    · exact ih (List.mem_cons_of_mem _ h)
    · exact ih h

theorem mem_addedAt {index : Nat} : p ∈ addedAt index deliveries ↔
      ∃ x ∈ deliveries, x.destination.index = index ∧ p ∈ x.copies := by
  simp only [addedAt, List.mem_flatMap, List.mem_filter, decide_eq_true_eq, and_assoc]

/-- One mount of an update. -/
theorem addRoot_ok {start others : List Namespace} {own : Namespace} {root : MountPoint}
    (hstart : SourcedTables start) (htables : SourcedTables (own :: others))
    (hroot : root ∈ own.points) (hparent : parent ∈ own.points)
    (hshare : shareSubtree (descendants own.points [root.id]) own.points groups =
      .ok (points, groups')) (hdeliver : deliver parent known
      (points.filter fun p => p.id ∈ descendants own.points [root.id])
      (receiversOf start added parent.metadata.peer) (⟨points, own.next⟩ :: others) =
        .ok (tables', deliveries)) :
    let e : Event := ⟨start, added, descendants own.points [root.id], parent,
      root.target.drop parent.target.length, receiversOf start added parent.metadata.peer,
      .mounted (points.filter fun p => p.id ∈ descendants own.points [root.id]) deliveries⟩
    SourcedTables tables' ∧ Kept [e] (own :: others) tables' ∧ e.Lawful := by
  intro e
  obtain ⟨honce, hcopies, hpoints⟩ := deliver_ok hdeliver
  have hshared := shareSubtree_ok hshare
  have hback : ∀ q ∈ points, ∃ p ∈ own.points, SharedRow (descendants own.points [root.id]) p q :=
    fun q hq => forall₂_exists_right (R := fun q p => SharedRow _ p q) hshared.flip hq
  have hsources : ∀ q ∈ points, q.source ≠ [] := by
    intro q hq
    obtain ⟨p, hp, hrow⟩ := hback q hq
    rw [hrow.source]
    exact htables 0 own rfl p hp
  have hcopied : ∀ x ∈ deliveries, ∀ q ∈ x.copies, q.source ≠ [] := by
    intro x hx q hq
    obtain ⟨p, hp, hrow⟩ :=
      forall₂_exists_right (R := fun q p => CopiedRow parent x.destination p q)
        (hcopies x hx).flip hq
    rw [hrow.source_eq]
    exact hsources p (List.mem_filter.mp hp).1
  have htable : ∀ index : Nat, tables'[index]? = none ∧ (own :: others)[index]? = none ∨
      ∃ table table' : Namespace, (own :: others)[index]? = some table ∧
        tables'[index]? = some table' ∧ table'.points =
          (if index = 0 then points else table.points) ++ addedAt index deliveries := by
    intro index
    have hindex := hpoints index
    cases index with
    | zero =>
      simp only [List.getElem?_cons_zero, Option.map_some] at hindex
      obtain ⟨table', htable', hrows⟩ := Option.map_eq_some_iff.mp hindex
      exact .inr ⟨own, table', rfl, htable', by rw [hrows, if_pos rfl]⟩
    | succ index =>
      simp only [List.getElem?_cons_succ] at hindex ⊢
      cases hothers : others[index]? with
      | none =>
        rw [hothers, Option.map_none, Option.map_eq_none_iff] at hindex
        exact .inl ⟨hindex, rfl⟩
      | some table =>
        rw [hothers, Option.map_some] at hindex
        obtain ⟨table', htable', hrows⟩ := Option.map_eq_some_iff.mp hindex
        exact .inr ⟨table, table', rfl, htable', by rw [hrows, if_neg (Nat.succ_ne_zero _)]⟩
  refine ⟨fun index table' htable' p hp => ?_, fun index => ?_, ⟨hcopies, ?_⟩, ⟨fun d => ?_, honce⟩,
    htables 0 own rfl parent hparent,
    fun d hd => sourced_destinations hstart (List.mem_filter.mp hd).1⟩
  · rcases htable index with ⟨hnone, -⟩ | ⟨table, table₁, h₀, h₁, hrows⟩
    · rw [hnone] at htable'
      cases htable'
    · rw [h₁] at htable'
      cases htable'
      rw [hrows] at hp
      rcases List.mem_append.mp hp with hp | hp
      · split at hp
        · exact hsources p hp
        · exact htables index table h₀ p hp
      · obtain ⟨x, hx, -, hp⟩ := mem_addedAt.mp hp
        exact hcopied x hx p hp
  · rcases htable index with ⟨hnone, hnone'⟩ | ⟨table, table', h₀, h₁, hrows⟩
    · exact .inl ⟨hnone', hnone⟩
    · refine .inr ⟨table, table', h₀, h₁, fun p hp => ?_, fun p hp => ?_⟩
      · by_cases hindex : index = 0
        · subst hindex
          cases h₀
          by_cases hmem : p.id ∈ descendants own.points [root.id]
          · exact .inr ⟨e, by simp, .inr ⟨rfl, hmem⟩⟩
          · obtain ⟨q, hq, hrow⟩ := forall₂_exists_right hshared hp
            rw [hrows, if_pos rfl, ← hrow.other hmem]
            exact .inl (List.mem_append_left _ hq)
        · rw [hrows, if_neg hindex]
          exact .inl (List.mem_append_left _ hp)
      · rw [hrows] at hp
        rcases List.mem_append.mp hp with hp | hp
        · by_cases hindex : index = 0
          · subst hindex
            cases h₀
            rw [if_pos rfl] at hp
            obtain ⟨q, hq, hrow⟩ := hback p hp
            by_cases hmem : q.id ∈ descendants own.points [root.id]
            · exact .inr ⟨e, by simp, .inr ⟨rfl, hrow.id ▸ hmem⟩⟩
            · rw [hrow.other hmem]
              exact .inl hq
          · rw [if_neg hindex] at hp
            exact .inl hp
        · exact .inr ⟨e, by simp, .inl (mem_addedAt.mp hp)⟩
  · obtain ⟨q, hq, hrow⟩ := forall₂_exists_right hshared hroot
    refine ⟨q, List.mem_filter.mpr ⟨hq, ?_⟩, by rw [hrow.target]⟩
    rw [hrow.id]
    simpa using subset_descendants own.points (List.mem_singleton_self root.id)
  · simp only [e, receiversOf, List.mem_filter, mem_destinations, Bool.or_eq_true,
      decide_eq_true_eq]

theorem addRoots_ok {start : List Namespace} (hstart : SourcedTables start)
    (htables : SourcedTables tables)
    (h : addRoots start added ids tables groups = .ok (tables', groups', events)) :
    SourcedTables tables' ∧ Kept events tables tables' ∧ ∀ e ∈ events, e.Lawful := by
  induction ids generalizing tables groups events with
  | nil =>
    cases h
    exact ⟨htables, .refl tables', nofun⟩
  | cons id ids ih =>
    cases tables with
    | nil => cases h
    | cons own others =>
      rw [addRoots] at h
      split at h
      · cases h
      · next root hroot =>
        split at h
        · exact ih htables h
        · next parent hparent =>
          simp only [Library.bind_ok, Prod.exists] at h
          obtain ⟨points, groups₁, hshare, known, groups₂, -, tables₁, deliveries,
            hdeliver, tables₂, groups₃, events₂, hothers, h⟩ := h
          cases h
          obtain ⟨hsourced, hkept, hlawful⟩ := addRoot_ok hstart htables
            (List.mem_of_find?_eq_some hroot) (List.mem_of_find?_eq_some hparent) hshare
            hdeliver
          obtain ⟨hsourced', hkept', hlawful'⟩ := ih hsourced hothers
          exact ⟨hsourced', hkept.trans hkept', List.forall_mem_cons.mpr ⟨hlawful, hlawful'⟩⟩

/-- The events of an update reach the peers and the slaves downstream and no one else, each
of them once, and rows change only at these. -/
structure Reaches (events : List Event) (tables tables' : List Namespace) : Prop where
  once : ∀ e ∈ events, e.ReachesOnce
  kept : Kept events tables tables'

theorem propagate_ok (hbefore : ∀ p ∈ before, p.source ≠ []) (htables : SourcedTables tables)
    (h : propagate before tables groups = .ok (tables', groups', events)) :
    Reaches events tables tables' ∧ ∀ e ∈ events, e.Lawful := by
  cases tables with
  | nil => cases h
  | cons current others =>
    simp only [propagate, Library.bind_ok, Prod.exists] at h
    obtain ⟨tables₁, unmounts, hremove, tables₂, groups₂, mounts, hadd, h⟩ := h
    cases h
    obtain ⟨hsourced, hkept, hlawful⟩ := removeRoots_ok hbefore htables hremove
    obtain ⟨-, hkept', hlawful'⟩ := addRoots_ok hsourced hsourced hadd
    have hall : ∀ e ∈ unmounts ++ mounts, e.Lawful := fun e he =>
      (List.mem_append.mp he).elim (hlawful e) (hlawful' e)
    exact ⟨⟨fun e he => (hall e he).reaches, hkept.trans hkept'⟩, hall⟩

/-- Events follow the directory of the mountpoint when the receivers show what the parent
shows, and only then. -/
theorem propagation_follows_iff {before : List MountPoint} {tables tables' : List Namespace}
    {groups groups' : Nat} {events : List Event} (hbefore : ∀ p ∈ before, p.source ≠ [])
    (htables : SourcedTables tables)
    (h : propagate before tables groups = .ok (tables', groups', events)) :
    (Reaches events tables tables' ∧ ∀ e ∈ events, e.FollowsDirectory) ↔
      ∀ e ∈ events, e.SameDirectory := by
  obtain ⟨hreaches, hlawful⟩ := propagate_ok hbefore htables h
  constructor
  · rintro ⟨-, hfollows⟩ e he
    have hlaw := hlawful e he
    exact (Event.follows_iff hlaw.made hlaw.reaches hlaw.sourced).mp (hfollows e he)
  · intro hsame
    refine ⟨hreaches, fun e he => ?_⟩
    have hlaw := hlawful e he
    exact (Event.follows_iff hlaw.made hlaw.reaches hlaw.sourced).mpr (hsame e he)

/-! ## A peer that shows a subdirectory -/

def nameOf (c : Char) (h : Plain [c]) : Name := ⟨[c], h⟩

/-- `/a` on `/p`, shared. -/
def sharedParent : MountPoint :=
  ⟨⟨7, 0, 0⟩, 64, 1, ['/', 'a'], [nameOf 'p' (by decide)], MS_BIND ||| MS_SHARED⟩

/-- `/p/s` bound on `/q`: the peer shows `/a/s`. -/
def subdirectoryPeer : MountPoint :=
  ⟨⟨7, 0, 0⟩, 65, 1, ['/', 'a', '/', 's'], [nameOf 'q' (by decide)], MS_BIND ||| MS_SHARED⟩

/-- `/b` bound on `/p/x`. -/
def newMount : MountPoint :=
  ⟨⟨0, 0, 0⟩, 66, 64, ['/', 'b'], [nameOf 'p' (by decide), nameOf 'x' (by decide)], MS_BIND⟩

def peerTables : List Namespace := [⟨[sharedParent, subdirectoryPeer, newMount], 67⟩]

theorem sourced_peerTables : SourcedTables peerTables := by
  intro index table htable p hp
  cases index with
  | zero =>
    cases htable
    simp only [List.mem_cons, List.not_mem_nil, or_false] at hp
    rcases hp with rfl | rfl | rfl <;> exact List.cons_ne_nil _ _
  | succ index => cases htable

theorem propagation_follows_peer : ∃ (tables' : List Namespace) (groups' : Nat)
    (events : List Event),
    propagate [sharedParent, subdirectoryPeer] peerTables 8 = .ok (tables', groups', events) ∧
      ((Reaches events peerTables tables' ∧ ∀ e ∈ events, e.FollowsDirectory) ↔
        ∀ e ∈ events, e.SameDirectory) := by
  have hok : (propagate [sharedParent, subdirectoryPeer] peerTables 8).isOk = true := by
    decide
  have hbefore : ∀ p ∈ [sharedParent, subdirectoryPeer], p.source ≠ [] := by
    intro p hp
    rcases List.mem_pair.mp hp with rfl | rfl <;> exact List.cons_ne_nil _ _
  cases hrun : propagate [sharedParent, subdirectoryPeer] peerTables 8 with
  | error e =>
    rw [hrun] at hok
    cases hok
  | ok result =>
    exact ⟨result.1, result.2.1, result.2.2, rfl,
      propagation_follows_iff hbefore sourced_peerTables hrun⟩

/-- The mount on `/p/x` appears on `/q/x` also, and no path below `/q` shows `/a/x`. -/
theorem subdirectory_peer_copies : (propagate [sharedParent, subdirectoryPeer] peerTables 8).map
      (fun result => result.1.map Namespace.points) = .ok [[sharedParent, subdirectoryPeer,
          { newMount with
            metadata := ⟨8, 0, 0⟩
            flags := MS_BIND ||| MS_SHARED },
          ⟨⟨8, 0, 0⟩, 67, 65, newMount.source,
            subdirectoryPeer.target ++ [nameOf 'x' (by decide)], MS_BIND ||| MS_SHARED⟩]] ∧
    ∀ r : Path, join subdirectoryPeer.source r ≠
      join sharedParent.source [nameOf 'x' (by decide)] := by
  refine ⟨by decide, fun r heq => ?_⟩
  have htake : (join subdirectoryPeer.source r).take 4 = ['/', 'a', '/', 's'] := by
    unfold join
    split
    · rfl
    · split
      · next hslash => cases hslash
      · rfl
  rw [heq] at htake
  exact absurd htake (by decide)

end Kinakaze.Mount
