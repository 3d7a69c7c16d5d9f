import Kinakaze.Library.StatefulCall
import Kinakaze.Mount.Paths

/-!
# The mount table

The rows of a mount namespace stand in order of publication, a parent before its children.
-/

namespace Kinakaze.Mount

def ROOT_MOUNT_ID : Nat := 1
def FIRST_DYNAMIC_MOUNT_ID : Nat := 64
def MAX_MOUNT_ID : Nat := 2 ^ 31 - 1

abbrev Flags := BitVec 64

def MS_BIND : Flags := 4096
def MS_REC : Flags := 16384
def BIND_ATTRS : Flags :=
  1 ||| 2 ||| 4 ||| 8 ||| 1024 ||| 2048 ||| (1#64 <<< 21) ||| (1#64 <<< 24)
def MS_UNBINDABLE : Flags := 1#64 <<< 17
def MS_PRIVATE : Flags := 1#64 <<< 18
def MS_SLAVE : Flags := 1#64 <<< 19
def MS_SHARED : Flags := 1#64 <<< 20
def MS_PROPAGATION : Flags := MS_UNBINDABLE ||| MS_PRIVATE ||| MS_SLAVE ||| MS_SHARED
def MS_TMPFS : Flags := 1#64 <<< 35
def MS_PROC : Flags := 1#64 <<< 36
def MS_OVERLAY : Flags := 1#64 <<< 40

/-- `flags & mask != 0`. -/
def Flags.has (flags mask : Flags) : Bool := flags &&& mask != 0

structure Metadata where
  peer : Nat
  master : Nat
  pivot : Nat
  deriving DecidableEq

def Metadata.clonedForAttachment (m : Metadata) : Metadata := { m with pivot := 0 }

structure MountPoint where
  metadata : Metadata
  id : Nat
  parent : Nat
  source : Text
  target : Path
  flags : Flags
  deriving DecidableEq

/-! ## Lookups -/

/-- `Iterator::min_by_key`: the first of the smallest. -/
def minByKey {α : Type} (key : α → Nat) : List α → Option α
  | [] => none
  | x :: rest =>
    match minByKey key rest with
    | none => some x
    | some y => if key x ≤ key y then some x else some y

/-- The first attachment below `parent` on the way to `path`. -/
def firstChild (table : List MountPoint) (path : Path) (parent : Nat) : Option MountPoint :=
  minByKey (fun point => point.target.textLength)
    (table.filter fun point => point.parent = parent && (suffix path point.target).isSome)

/-- The loop of `visible_mount`, for so many turns. -/
def visibleFrom (table : List MountPoint) (path : Path) :
    Nat → Nat → Option MountPoint → Except Int (Option MountPoint)
  | 0, _, _ => .error EIO
  | turns + 1, parent, selected =>
    match firstChild table path parent with
    | none => .ok selected
    | some child => visibleFrom table path turns child.id (some child)

def visibleMount (table : List MountPoint) (path : Path) : Except Int (Option MountPoint) :=
  visibleFrom table path (table.length + 1) ROOT_MOUNT_ID none

/-- `native_translation_in` on a normalized path; `none` selects a virtual file system. -/
def translationAt (table : List MountPoint) (current : Path) : Except Int (Option Text) := do
  match ← visibleMount table current with
  | some mount =>
    if mount.flags.has (MS_OVERLAY ||| MS_PROC ||| MS_TMPFS) then return none
    else
      match suffix current mount.target with
      | some rest => return some (join mount.source rest)
      | none => throw EIO
  | none => return some current.text

def nativeTranslationIn (table : List MountPoint) (path : Text) : Except Int (Option Text) := do
  translationAt table (← normalize path)

def translateIn (table : List MountPoint) (path : Path) : Except Int Text := do
  match ← translationAt table path with
  | some text => return text
  | none => throw EOPNOTSUPP

/-! ## Binding -/

/-- The text is one of the built-in trees or the root. -/
def hasFixedVirtualDispatch (text : Text) : Bool :=
  text = ['/'] || [['/', 'p', 'r', 'o', 'c'], ['/', 's', 'y', 's'], ['/', 'd', 'e', 'v']].any
    fun root => text = root || (root ++ ['/']).isPrefixOf text

def builtinRoots : List Path :=
  [[⟨['p', 'r', 'o', 'c'], by decide⟩], [⟨['s', 'y', 's'], by decide⟩],
    [⟨['d', 'e', 'v'], by decide⟩]]

def rootHasMountBackends (table : List MountPoint) : Bool :=
  builtinRoots.all fun path =>
    match visibleMount table path with
    | .ok (some point) => point.target = path && point.flags.has (MS_PROC ||| MS_TMPFS)
    | _ => false

def allocateId (nextId : Nat) : Except Int (Nat × Nat) :=
  if FIRST_DYNAMIC_MOUNT_ID ≤ nextId ∧ nextId ≤ MAX_MOUNT_ID then .ok (nextId, nextId + 1)
  else .error EOVERFLOW

/-- What binding asks of the virtual file systems. -/
structure Host where
  /-- The path is served by the built-in `/proc`. -/
  owns : Path → Bool
  prepareProc : Except Int Text
  tmpfsSubtree : Text → Path → Except Int Text
  splitView : Text → Except Int (Text × Text)
  withView : Text → Text → Text

/-- The backing of the source and the flags of the attachment. -/
def attachment (host : Host) (table : List MountPoint) (source : Path)
    (selectedSource : Option MountPoint) (builtinProc : Bool) (flags : Flags) :
    Except Int (Text × Flags) := do
  match selectedSource with
  | some point =>
    match suffix source point.target with
    | none => throw EIO
    | some rest =>
      if point.flags.has MS_TMPFS then
        return (← host.tmpfsSubtree point.source rest, point.flags &&& ~~~MS_REC)
      else if point.flags.has MS_PROC then
        return ((point.source.reverse.dropWhile fun c => c = '/').reverse ++ '/' :: rest.joined,
          point.flags &&& ~~~MS_REC)
      else if point.flags.has MS_OVERLAY then
        let (base, view) ← host.splitView point.source
        let parts := [view, rest.joined].filter fun s => s ≠ []
        return (host.withView base (['/'].intercalate parts),
          (flags &&& ~~~MS_BIND) ||| (point.flags &&& ~~~MS_REC))
      else
        return (← translateIn table source,
          flags ||| (point.flags &&& (MS_PROPAGATION ||| BIND_ATTRS)))
  | none =>
    if builtinProc then
      let root ← host.prepareProc
      match source with
      | ⟨['p', 'r', 'o', 'c'], _⟩ :: tail =>
        return (root ++ Path.joined tail, (flags &&& ~~~(MS_BIND ||| MS_REC)) ||| MS_PROC)
      | _ => throw EIO
    else return (← translateIn table source, flags)

/-- The loop of a recursive bind: `copied` holds the copy of each mount copied so far. -/
def copyMounts (source target : Path) :
    List MountPoint → List (Nat × Nat) → Nat → Except Int (List MountPoint × Nat)
  | [], _, nextId => .ok ([], nextId)
  | point :: rest, copied, nextId =>
    if point.flags.has MS_UNBINDABLE then copyMounts source target rest copied nextId
    else
      match copied.lookup point.parent, suffix point.target source with
      | some parent, some below => do
        let (cloneId, nextId) ← allocateId nextId
        let (clones, nextId) ←
          copyMounts source target rest ((point.id, cloneId) :: copied) nextId
        return (⟨point.metadata.clonedForAttachment, cloneId, parent, point.source,
          target ++ below, point.flags⟩ :: clones, nextId)
      | _, _ => copyMounts source target rest copied nextId

def mountId (point : Option MountPoint) : Nat :=
  match point with
  | some point => point.id
  | none => ROOT_MOUNT_ID

def bindIn (host : Host) (table : List MountPoint) (nextId : Nat) (source target : Text)
    (flags : Flags) : Except Int (List MountPoint × Nat) := do
  let source ← normalize source
  let target ← normalize target
  let selectedSource ← visibleMount table source
  let builtinProc := selectedSource.isNone && host.owns source
  if (hasFixedVirtualDispatch source.text && !(source = [] && rootHasMountBackends table) ||
      hasFixedVirtualDispatch target.text) && !builtinProc &&
      !selectedSource.any fun p => p.flags.has (MS_PROC ||| MS_TMPFS) then
    throw EOPNOTSUPP
  if selectedSource.any fun p => p.flags.has MS_UNBINDABLE then throw EINVAL
  let (backing, attachmentFlags) ← attachment host table source selectedSource builtinProc flags
  if hasFixedVirtualDispatch backing && !(backing = ['/'] && rootHasMountBackends table) &&
      !attachmentFlags.has (MS_PROC ||| MS_TMPFS) then
    throw EOPNOTSUPP
  let selectedTarget ← visibleMount table target
  let (id, nextId) ← allocateId nextId
  let added : MountPoint := ⟨(selectedSource.map fun p => p.metadata.clonedForAttachment).getD ⟨0, 0, 0⟩,
    id, mountId selectedTarget, backing, target, attachmentFlags⟩
  if flags.has MS_REC then
    let (clones, nextId) ←
      copyMounts source target table [(mountId selectedSource, id)] nextId
    return (table ++ added :: clones, nextId)
  else return (table ++ [added], nextId)

/-! ## Unmounting -/

/-- The mounts below `ids`, in one pass over the table. -/
def descendants : List MountPoint → List Nat → List Nat
  | [], ids => ids
  | point :: rest, ids =>
    descendants rest (if point.parent ∈ ids then point.id :: ids else ids)

def MNT_DETACH : BitVec 32 := 2

/-- The mount that a pivot has made the root of the namespace. -/
def namespaceRoot (table : List MountPoint) : Except Int (Option MountPoint) :=
  let root := table.find? fun point => point.id = ROOT_MOUNT_ID
  let declared := (root.map fun point => point.metadata.pivot).filter fun id => id ≠ 0
  let marked := table.filter fun point => point.id ≠ ROOT_MOUNT_ID && point.metadata.pivot = point.id
  if 1 < marked.length ∨ table.any fun point =>
      point.metadata.pivot ≠ 0 && point.id ≠ ROOT_MOUNT_ID && point.metadata.pivot ≠ point.id then
    .error EIO
  else
    match root, declared, marked.head? with
    | _, none, none => .ok none
    | some _, some id, some point => if id = point.id then .ok (some point) else .error EIO
    | none, none, some point => .ok (some point)
    | _, _, _ => .error EIO

/-- `detach_old_root`; `none` leaves the call to go on. -/
def detachOldRoot (table : List MountPoint) (target : Path) (flags : BitVec 32) :
    Except Int (Option (List MountPoint)) := do
  if target ≠ [] then return none
  else
    match ← namespaceRoot table with
    | none => return none
    | some root =>
      if flags &&& MNT_DETACH = 0 then throw EBUSY
      else
        let keep := descendants table [root.id]
        return some ((table.filter fun p => p.id ∈ keep).map fun p =>
          if p.id = root.id then { p with parent := ROOT_MOUNT_ID } else p)

def unmountIn (table : List MountPoint) (target : Path) (flags : BitVec 32) :
    Except Int (List MountPoint) := do
  match ← detachOldRoot table target flags with
  | some table => return table
  | none =>
    match (← visibleMount table target).filter fun point => point.target = target with
    | none => throw EINVAL
    | some selected =>
      if flags &&& MNT_DETACH = 0 ∧ table.any fun point => point.parent = selected.id then
        throw EBUSY
      else
        let removed := descendants table [selected.id]
        return table.filter fun point => point.id ∉ removed

end Kinakaze.Mount
