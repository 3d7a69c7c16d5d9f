import Mathlib.Algebra.Ring.Nat
import Mathlib.Algebra.Ring.Int.Defs
import Mathlib.Tactic.Common

/-!
# PID namespaces in the process table

A row keeps its registry pid and a map from PID namespaces to the number it has
there.  A record keeps a namespace's parent, its next number and its init.
-/

namespace Kinakaze.PidNamespace

def MAX_LEVELS : Nat := 33
def RECORD_COUNT : Nat := 1024
def CAPACITY : Nat := 512
def I32_MAX : Nat := 2 ^ 31 - 1

def ESRCH : Nat := 3
def EEXIST : Nat := 17
def EINVAL : Nat := 22
def ENOSPC : Nat := 28

/-- A namespace record. -/
structure Record where
  id : Nat
  parent : Nat
  next : Nat
  init : Nat
  dead : Bool
  depth : Nat
  deriving DecidableEq

/-- One namespace of each kind; a stored 0 reads as the first namespace. -/
structure Memberships where
  uts : Nat
  ipc : Nat
  net : Nat
  cgroup : Nat
  pid : Nat
  pidChildren : Nat
  deriving DecidableEq

/-- What the rows keep for namespaces. -/
structure Row where
  pid : Nat
  zombie : Bool
  memberships : Memberships
  map : List (Nat × Nat)
  deriving DecidableEq

structure Table where
  rows : List Row
  records : List Record

def membership (stored : Nat) : Nat := max stored 1

/-- The PID namespace of a row. -/
def Row.ns (row : Row) : Nat := membership row.memberships.pid

/-- The PID namespace of its future children. -/
def Row.childNs (row : Row) : Nat := membership row.memberships.pidChildren

/-- Every kind the first namespace. -/
def Memberships.root : Memberships := ⟨1, 1, 1, 1, 1, 1⟩

def Memberships.read (m : Memberships) : Memberships :=
  ⟨membership m.uts, membership m.ipc, membership m.net, membership m.cgroup, membership m.pid,
    membership m.pidChildren⟩

def Memberships.hasZero (m : Memberships) : Bool :=
  [m.uts, m.ipc, m.net, m.cgroup, m.pid, m.pidChildren].contains 0

/-- The entries of the map that are read. -/
def Row.entries (row : Row) : List (Nat × Nat) := row.map.take MAX_LEVELS

/-- `number`: the number of a row in a namespace. -/
def Row.number (row : Row) (ns : Nat) : Option Nat :=
  if ns = 1 then some row.pid
  else (row.entries.find? (·.1 = ns)).map (·.2)

/-- One more number of a namespace handed out, to `pid`. -/
def Record.take (r : Record) (pid : Nat) : Record :=
  { r with next := r.next + 1, init := if r.next = 1 then pid else r.init }

/-- A namespace gets its first process, which was somewhere else before. -/
def Record.start (r : Record) (pid : Nat) : Record := { r with init := pid, next := 2 }

/-- The namespace of a process that ends is dead if that process was its init. -/
def Record.afterExit (r : Record) (pid : Nat) : Record :=
  if r.init = pid then { r with dead := true } else r

/-- A row enters a namespace as its first process; the number goes to the end of the map. -/
def Row.enter (row : Row) (ns : Nat) : Row :=
  { row with
    map := row.map ++ [(ns, 1)]
    memberships := { row.memberships with pid := ns } }

namespace Table

variable (t : Table)

def find (pid : Nat) : Option Row := if pid = 0 then none else t.rows.find? (·.pid = pid)

def record (id : Nat) : Option Record := t.records.find? (·.id = id)

def pidParent (id : Nat) : Option Nat := if id = 1 then none else (t.record id).map (·.parent)

def pidDescendant (target ancestor : Nat) : Bool :=
  go MAX_LEVELS target
where
  go : Nat → Nat → Bool
    | 0, _ => false
    | rounds + 1, target =>
      if target = ancestor then true
      else
        match t.pidParent target with
        | none => false
        | some parent => go rounds parent

/-- Change the row of a pid. -/
def updateRow (pid : Nat) (f : Row → Row) : Table :=
  { t with rows := t.rows.map fun row => if row.pid = pid then f row else row }

/-- Change the record of a namespace. -/
def updateRecord (id : Nat) (f : Record → Record) : Table :=
  { t with records := t.records.map fun r => if r.id = id then f r else r }

def createPidNamespace (id parent : Nat) : Except Nat Table :=
  if id ≤ 1 then .error EINVAL
  else if (t.record id).isSome then .error EEXIST
  else
    -- A free record reads as one with id 0 and depth 0.
    match if parent = 1 ∨ parent = 0 ∧ t.records.length < RECORD_COUNT then some 1
        else (t.record parent).map (·.depth + 1) with
    | none => .error EINVAL
    | some depth =>
      if MAX_LEVELS ≤ depth then .error ENOSPC
      else if RECORD_COUNT ≤ t.records.length then .error ENOSPC
      else .ok { t with records := t.records ++ [⟨id, parent, 1, 0, false, depth⟩] }

def setMemberships (pid : Nat) (values : Memberships) : Table :=
  if values.hasZero then t
  else t.updateRow pid fun row => { row with memberships := values }

def discardEmptyPidNamespace (id : Nat) : Table :=
  match t.record id with
  | none => t
  | some r => if r.init = 0 then { t with records := t.records.filter (·.id ≠ id) } else t

/-- The records from a namespace up to the root, if every one of them takes new processes. -/
def chain : Nat → Nat → Option (List Record)
  | limit, ns =>
    if ns = 1 then some []
    else
      match limit with
      | 0 => none
      | limit + 1 =>
        match t.record ns with
        | none => none
        | some r =>
          if r.dead ∨ I32_MAX ≤ r.next then none
          else (chain limit r.parent).map (r :: ·)

/-- The memberships that a child of `parent` copies. -/
def parentMemberships (parent : Nat) : Memberships :=
  ((t.find parent).map (·.memberships.read)).getD Memberships.root

/-- `initialize_child`: the row of a new child of `parent`, innermost number first. -/
def initializeChild (parent pid : Nat) : Option (Table × Row) :=
  let values := t.parentMemberships parent
  match t.chain (MAX_LEVELS - 1) values.pidChildren with
  | none => none
  | some records =>
    let row :=
      { pid
        zombie := false
        memberships := { values with pid := values.pidChildren }
        map := records.map fun r => (r.id, r.next) }
    -- The records of a chain are distinct, so each of them is taken from once.
    some (records.foldl (fun t r => t.updateRecord r.id fun r => Record.take r pid) t, row)

/-- Registering a child under a pid that no row has. -/
def registerChild (parent pid : Nat) : Option Table :=
  if pid = 0 ∨ (t.find pid).isSome ∨ CAPACITY ≤ t.rows.length then none
  else
    match t.initializeChild parent pid with
    | none => none
    | some (t, row) => some { t with rows := t.rows ++ [row] }

/-- `enter_new_pid_namespace`, by the process `pid`. -/
def enterNewPidNamespace (pid : Nat) : Except Nat Table :=
  match t.find pid with
  | none => .error ESRCH
  | some row =>
    match t.record row.childNs with
    | none => .error EINVAL
    | some r =>
      if r.parent ≠ row.ns ∨ r.init ≠ 0 ∨ r.next ≠ 1 ∨ MAX_LEVELS ≤ row.map.length then
        .error EINVAL
      else
        .ok ((t.updateRecord row.childNs (·.start pid)).updateRow pid (·.enter row.childNs))

/-- `exiting`, as far as the records go: the init of its own namespace takes that down. -/
def exiting (row : Row) : Table :=
  if row.ns = 1 then t
  else t.updateRecord row.ns (·.afterExit row.pid)

/-- A process ends: `exiting`, and its row waits for its parent. -/
def exit (pid : Nat) : Table :=
  match t.find pid with
  | none => t
  | some row => (t.exiting row).updateRow pid fun row => { row with zombie := true }

/-- The row of a process that ended is cleared. -/
def release (pid : Nat) : Table :=
  { t with rows := t.rows.filter fun row => row.pid ≠ pid ∨ row.zombie = false }

/-! ## Reading -/

def visibleFrom (pid viewer : Nat) : Option Nat :=
  (t.find pid).bind fun row => (t.find viewer).bind fun viewer => row.number viewer.ns

def visibleIn (pid ns : Nat) : Option Nat := (t.find pid).bind (·.number ns)

def resolveIn (visible ns : Nat) : Option Nat :=
  if visible = 0 then none
  else (t.rows.find? fun row => row.number ns = some visible).map (·.pid)

def resolveFrom (visible viewer : Nat) : Option Nat :=
  if visible = 0 then none
  else
    match t.find viewer with
    | none => none
    | some row =>
      if row.ns = 1 then (t.find visible).map fun _ => visible
      else (t.rows.find? fun other => other.number row.ns = some visible).map (·.pid)

/-- `pid_numbers`: outermost first. -/
def pidNumbers (pid : Nat) : List Nat :=
  match t.find pid with
  | none => []
  | some row => pid :: row.entries.reverse.map (·.2)

/-- The number of namespaces above one; `none` when the walk has not ended. -/
def namespaceDepth : Nat → Nat → Option Nat
  | 0, _ => none
  | fuel + 1, ns =>
    match t.pidParent ns with
    | none => some 0
    | some parent => (namespaceDepth fuel parent).map (· + 1)

/-- `visible_pid_numbers_in`; `none` when the walk to the root has not ended. -/
def visiblePidNumbersIn (fuel pid ns : Nat) : Option (List Nat) :=
  match t.visibleIn pid ns with
  | none => some []
  | some own =>
    let all := t.pidNumbers pid
    if ns = 1 then some all
    else
      (t.namespaceDepth fuel ns).map fun depth =>
        if depth ≤ all.length then all.drop depth else [own]

end Table

/-! ## Runs -/

inductive Op
  | create (id parent : Nat)
  | setMemberships (pid : Nat) (values : Memberships)
  | child (parent pid : Nat)
  | enterNew (pid : Nat)
  | exit (pid : Nat)
  | release (pid : Nat)
  | discard (id : Nat)

/-- A live process keeps its own PID namespace, and has its children in one below it. -/
def mayJoin (t : Table) (pid : Nat) (values : Memberships) : Bool :=
  match t.find pid with
  | none => false
  | some row =>
    !row.zombie && values.pid = row.ns && t.pidDescendant values.pidChildren row.ns

/-- Only a process that has not ended enters a namespace. -/
def mayEnter (t : Table) (pid : Nat) : Bool :=
  match t.find pid with
  | none => false
  | some row => !row.zombie

/-- One operation; one that fails changes nothing. -/
def step (t : Table) : Op → Table
  | .create id parent => (t.createPidNamespace id parent).toOption.getD t
  | .setMemberships pid values => if mayJoin t pid values then t.setMemberships pid values else t
  | .child parent pid => (t.registerChild parent pid).getD t
  | .enterNew pid => if mayEnter t pid then (t.enterNewPidNamespace pid).toOption.getD t else t
  | .exit pid => t.exit pid
  | .release pid => t.release pid
  | .discard id => t.discardEmptyPidNamespace id

def Table.empty : Table := ⟨[], []⟩

/-- No process enters a new namespace from outside the root, and no child is the first
process of a namespace above its own. -/
def WithinOrder (t : Table) : Op → Prop
  | .child parent _ =>
    ∀ records, t.chain (MAX_LEVELS - 1) (t.parentMemberships parent).pidChildren = some records →
      ∀ r ∈ records.tail, r.next ≠ 1
  | .enterNew pid => ∀ row, t.find pid = some row → row.ns = 1
  | _ => True

end Kinakaze.PidNamespace
