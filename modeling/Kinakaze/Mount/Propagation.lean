import Kinakaze.Mount.Table

/-!
# Mount events in other namespaces

A mount or an unmount below a shared mount happens at every peer of that mount and at the
slaves downstream.
-/

namespace Kinakaze.Mount

/-- `Table`: the rows of a namespace, and the next mount id. -/
structure Namespace where
  points : List MountPoint
  next : Nat

structure Destination where
  index : Nat
  point : MountPoint
  slave : Bool

/-! ## Destinations -/

/-- One pass of the loop over all points. -/
def passGroups (points : List MountPoint) (groups : List Nat) : List Nat :=
  points.foldl (fun groups point =>
    if point.metadata.master ≠ 0 ∧ point.metadata.master ∈ groups ∧ point.metadata.peer ≠ 0 ∧
        point.metadata.peer ∉ groups then point.metadata.peer :: groups
    else groups) groups

/-- The passes, until one finds no new group. -/
def closeGroups (points : List MountPoint) : Nat → List Nat → List Nat
  | 0, groups => groups
  | turns + 1, groups =>
    let grown := passGroups points groups
    if grown.length = groups.length then groups else closeGroups points turns grown

def allPoints (tables : List Namespace) : List MountPoint := tables.flatMap Namespace.points

/-- There are at most as many new groups as points. -/
def downstreamGroups (tables : List Namespace) (group : Nat) : List Nat :=
  closeGroups (allPoints tables) ((allPoints tables).length + 1) [group]

def destinationAt (groups : List Nat) (group index : Nat) (p : MountPoint) : Option Destination :=
  if p.metadata.peer = group then some ⟨index, p, false⟩
  else if p.metadata.master ≠ 0 ∧ p.metadata.master ∈ groups then some ⟨index, p, true⟩
  else none

def destinations (tables : List Namespace) (group : Nat) : List Destination :=
  tables.zipIdx.flatMap fun table =>
    table.1.points.filterMap (destinationAt (downstreamGroups tables group) group table.2)

/-- The destination is the parent of the event itself. -/
def Destination.isSelf (d : Destination) (parent : MountPoint) : Bool :=
  d.index = 0 && d.point.id = parent.id

/-! ## Unmounts -/

/-- The attachment at `rest` below a mount. -/
def attachmentAt (points : List MountPoint) (mount : MountPoint) (rest : Path) :
    Option MountPoint :=
  points.find? fun p => p.parent = mount.id && p.target = mount.target ++ rest

def afterRemoval (points : List MountPoint) (selected : Option MountPoint) : List MountPoint :=
  match selected with
  | none => points
  | some p => points.filter fun q => q.id ∉ descendants points [p.id]

/-- What an unmount did at a destination. -/
structure Removal where
  destination : Destination
  points : List MountPoint
  gone : Option MountPoint

def removeAt (parent : MountPoint) (rest : Path) :
    List Destination → List Namespace → Except Int (List Namespace × List Removal)
  | [], tables => .ok (tables, [])
  | d :: others, tables =>
    if d.isSelf parent then removeAt parent rest others tables
    else
      match tables[d.index]? with
      | none => .error EIO
      | some table =>
        let selected := attachmentAt table.points d.point rest
        (removeAt parent rest others (tables.set d.index
          { table with points := afterRemoval table.points selected })).map
            fun result => (result.1, ⟨d, table.points, selected⟩ :: result.2)

/-! ## Mounts -/

def nextGroup (groups : Nat) : Except Int (Nat × Nat) :=
  if groups < 2 ^ 64 - 1 then .ok (groups, groups + 1) else .error EOVERFLOW

/-- The group of a mount that becomes shared. -/
def sharedGroup (p : MountPoint) (groups : Nat) : Except Int (Nat × Nat) :=
  if p.metadata.peer = 0 then nextGroup groups else .ok (p.metadata.peer, groups)

/-- The new mounts become shared. -/
def shareSubtree (ids : List Nat) : List MountPoint → Nat → Except Int (List MountPoint × Nat)
  | [], groups => .ok ([], groups)
  | p :: rest, groups => do
    if p.id ∈ ids then
      let (peer, groups) ← sharedGroup p groups
      let (rest, groups) ← shareSubtree ids rest groups
      return ({ p with
        metadata := { p.metadata with peer := peer }
        flags := (p.flags &&& ~~~MS_PRIVATE) ||| MS_SHARED } :: rest, groups)
    else
      let (rest, groups) ← shareSubtree ids rest groups
      return (p :: rest, groups)

abbrev SlaveGroups := List ((Nat × Nat) × Nat)

/-- Groups for the copies of one mount at the slaves that have peers. -/
def slaveGroupsOf (source : MountPoint) :
    List Destination → SlaveGroups → Nat → Except Int (SlaveGroups × Nat)
  | [], known, groups => .ok (known, groups)
  | d :: others, known, groups => do
    let key := (source.metadata.peer, d.point.metadata.peer)
    if d.slave && d.point.metadata.peer ≠ 0 && (known.lookup key).isNone then
      let (group, groups) ← nextGroup groups
      slaveGroupsOf source others ((key, group) :: known) groups
    else slaveGroupsOf source others known groups

def slaveGroups (parent : MountPoint) (targets : List Destination) :
    List MountPoint → SlaveGroups → Nat → Except Int (SlaveGroups × Nat)
  | [], known, groups => .ok (known, groups)
  | source :: rest, known, groups => do
    let known := ((source.metadata.peer, parent.metadata.peer), source.metadata.peer) :: known
    let (known, groups) ← slaveGroupsOf source targets known groups
    slaveGroups parent targets rest known groups

def lookupGroup (known : SlaveGroups) (source group : Nat) : Except Int Nat :=
  match known.lookup (source, group) with
  | some found => .ok found
  | none => .error EIO

/-- The groups and flags of a copy. -/
def copyGroups (known : SlaveGroups) (d : Destination) (source : MountPoint) :
    Except Int (Metadata × Flags) := do
  if d.slave then
    let master ← lookupGroup known source.metadata.peer d.point.metadata.master
    let peer ← if d.point.metadata.peer = 0 then Except.ok 0
      else lookupGroup known source.metadata.peer d.point.metadata.peer
    return ({ source.metadata with peer := peer, master := master },
      (source.flags &&& ~~~MS_PROPAGATION) ||| MS_SLAVE ||| if peer ≠ 0 then MS_SHARED else 0)
  else return (source.metadata, source.flags)

/-- The copies of the subtree at one destination; `translated` tells the copies so far. -/
def copySubtree (parent : MountPoint) (known : SlaveGroups) (d : Destination) :
    List MountPoint → List (Nat × Nat) → Namespace → Except Int (Namespace × List MountPoint)
  | [], _, table => .ok (table, [])
  | source :: rest, translated, table => do
    let (id, next) ← allocateId table.next
    let translated := (source.id, id) :: translated
    match translated.lookup source.parent, suffix source.target parent.target with
    | some copied, some below =>
      let (metadata, flags) ← copyGroups known d source
      let target := d.point.target ++ below
      let covered := table.points.find? fun p => p.parent = copied && p.target = target
      let point : MountPoint := ⟨metadata, id, (covered.map MountPoint.id).getD copied,
        source.source, target, flags⟩
      let (table, copies) ←
        copySubtree parent known d rest translated ⟨table.points ++ [point], next⟩
      return (table, point :: copies)
    | _, _ => throw EIO

/-- What a mount did at a destination. -/
structure Delivery where
  destination : Destination
  copies : List MountPoint

def deliver (parent : MountPoint) (known : SlaveGroups) (subtree : List MountPoint) :
    List Destination → List Namespace → Except Int (List Namespace × List Delivery)
  | [], tables => .ok (tables, [])
  | d :: others, tables =>
    if d.isSelf parent then deliver parent known subtree others tables
    else
      match tables[d.index]? with
      | none => .error EIO
      | some table => do
        let (table, copies) ←
          copySubtree parent known d subtree [(parent.id, d.point.id)] table
        let (tables, deliveries) ←
          deliver parent known subtree others (tables.set d.index table)
        return (tables, ⟨d, copies⟩ :: deliveries)

/-! ## Updates -/

inductive Outcome where
  | unmounted (removals : List Removal)
  | mounted (subtree : List MountPoint) (deliveries : List Delivery)

/-- What happened at `rest` below the shared mount `parent`: the namespaces in which the
receivers were selected, the new mounts that receive nothing, the mounts that became
shared, and what each receiver got. -/
structure Event where
  tables : List Namespace
  own : List Nat
  shared : List Nat
  parent : MountPoint
  rest : Path
  receivers : List Destination
  outcome : Outcome

def removeRoots (before : List MountPoint) :
    List MountPoint → List Namespace → Except Int (List Namespace × List Event)
  | [], tables => .ok (tables, [])
  | root :: roots, tables =>
    match before.find? fun p => p.id = root.parent && p.metadata.peer ≠ 0 with
    | none => removeRoots before roots tables
    | some parent =>
      match suffix root.target parent.target with
      | none => .error EIO
      | some rest => do
        let receivers := destinations tables parent.metadata.peer
        let (tables₁, removals) ← removeAt parent rest receivers tables
        let (tables₂, events) ← removeRoots before roots tables₁
        return (tables₂, ⟨tables, [], [], parent, rest, receivers, .unmounted removals⟩ :: events)

/-- The receivers are selected before any mount is made. -/
def receiversOf (start : List Namespace) (added : List Nat) (group : Nat) : List Destination :=
  (destinations start group).filter fun d => d.index ≠ 0 || d.point.id ∉ added

def addRoots (start : List Namespace) (added : List Nat) :
    List Nat → List Namespace → Nat → Except Int (List Namespace × Nat × List Event)
  | [], tables, groups => .ok (tables, groups, [])
  | _ :: _, [], _ => .error EIO
  | id :: ids, own :: others, groups =>
    match own.points.find? fun p => p.id = id with
    | none => .error EIO
    | some root =>
      match own.points.find? fun p => p.id = root.parent && p.metadata.peer ≠ 0 with
      | none => addRoots start added ids (own :: others) groups
      | some parent => do
        let shared := descendants own.points [root.id]
        let (points, groups) ← shareSubtree shared own.points groups
        let subtree := points.filter fun p => p.id ∈ shared
        let receivers := receiversOf start added parent.metadata.peer
        let (known, groups) ← slaveGroups parent receivers subtree [] groups
        let (tables₁, deliveries) ←
          deliver parent known subtree receivers (⟨points, own.next⟩ :: others)
        let (tables₂, groups, events) ← addRoots start added ids tables₁ groups
        return (tables₂, groups, ⟨start, added, shared, parent,
          root.target.drop parent.target.length, receivers,
          .mounted subtree deliveries⟩ :: events)

/-- The mounts of `points` that `others` lacks, or has elsewhere. -/
def changedIds (points others : List MountPoint) : List Nat :=
  (points.filter fun p => (others.find? fun q => q.id = p.id).all fun q =>
    q.target ≠ p.target || q.parent ≠ p.parent).map MountPoint.id

/-- The part of `update` behind the action: `before` are the rows of the namespace the
action was taken in, and the first table has those it has made of them. -/
def propagate (before : List MountPoint) (tables : List Namespace) (groups : Nat) :
    Except Int (List Namespace × Nat × List Event) :=
  match tables with
  | [] => .error EIO
  | current :: _ => do
    let removed := changedIds before current.points
    let added := changedIds current.points before
    let removalRoots := before.filter fun p => p.id ∈ removed && p.parent ∉ removed
    let additionRoots := current.points.filter fun p => p.id ∈ added && p.parent ∉ added
    let (tables, unmounts) ← removeRoots before removalRoots tables
    let (tables, groups, mounts) ←
      addRoots tables added (additionRoots.map MountPoint.id) tables groups
    return (tables, groups, unmounts ++ mounts)

end Kinakaze.Mount
