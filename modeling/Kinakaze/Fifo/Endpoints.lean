import Mathlib.Algebra.Ring.Nat
import Mathlib.Algebra.Ring.Int.Defs
import Kinakaze.Fifo.Channel

/-!
# The endpoints of a FIFO

Every open description of a FIFO has a row in the shared mapping and a native
token.  Tokens disappear when their last holder goes; whoever locks the FIFO
next finds out from the directory and drops the rows.  That a peer has come is
recorded as a generation, the identity of the newest endpoint with that access.

`State` is the part of the mapping that opens, closes and readiness queries use,
with a `history` that only the arguments about it read.  The owner of the mutex
can die between any two writes; the next owner finds the mutex abandoned.
-/

namespace Kinakaze.Fifo.Presence

def ROWS : Nat := 1024

def ENXIO : Int := 6
def EINVAL : Int := 22
def ENFILE : Int := 23

def O_ACCMODE : Nat := 3
def O_NONBLOCK : Nat := 0o4000

/-- The two sides of a FIFO, and the accesses `READ` and `WRITE`. -/
inductive Side where
  | read
  | write
  deriving DecidableEq

def Side.peer : Side → Side
  | .read => .write
  | .write => .read

/-- A row in use; its `id` is not zero. -/
structure Row where
  id : Nat
  readGeneration : Nat
  writeGeneration : Nat
  flags : Nat
  access : Side → Bool

/-- The generation of the endpoints on `side` that the row was published with. -/
def Row.seen (row : Row) : Side → Nat
  | .write => row.readGeneration
  | .read => row.writeGeneration

/-- What happened, for the arguments about it: a row was published; the endpoint
of that identity was opened on a side; its row was dropped. -/
inductive Entry where
  | published (id : Nat)
  | opened (side : Side) (id : Nat)
  | closed (id : Nat)
  deriving DecidableEq

/-- `generation .read` is `reader_generation` and `present .read` is `readers`,
and so on.  A free row, with `id` zero, is `none`: no field of it is read. -/
structure State where
  head : Nat
  length : Nat
  nextId : Nat
  generation : Side → Nat
  present : Side → Nat
  needsReconcile : Bool
  rows : List (Option Row)
  history : List Entry

namespace State

/-! ## The census -/

/-- Note in the history that an endpoint is open on a side. -/
def note (s : State) (side : Side) (id : Nat) : State :=
  if .opened side id ∈ s.history then s else { s with history := .opened side id :: s.history }

/-- Count a row on a side, and complete the publication of its generation. -/
def census (s : State) (row : Row) (side : Side) : State :=
  if row.access side then
    { s.note side row.id with
      present := Function.update s.present side (s.present side + 1)
      generation := Function.update s.generation side (max (s.generation side) row.id) }
  else s

/-- One turn of the scan's loop. -/
def visit (live : Nat → Bool) (s : State) (slot : Nat) : State :=
  match s.rows[slot]? with
  | some (some row) =>
    if live row.id then (s.census row .read).census row .write
    else { s with rows := s.rows.set slot none, history := .closed row.id :: s.history }
  | _ => s

/-- The scan over the first `slots` rows. -/
def sweep (live : Nat → Bool) (s : State) : Nat → State
  | 0 => { s with present := fun _ => 0 }
  | slots + 1 => (sweep live s slots).visit live slots

end State

/-- What a locked section meets: whether the directory has changed since it was
last looked at, and the errors of the system calls, `none` for success. -/
structure Turn where
  watched : Bool
  retired : Option Int
  rearmed : Option Int
  listed : Option Int
  changed : Option Int

namespace State

def reconcile (live : Nat → Bool) (turn : Turn) (s : State) : Option Int × State :=
  match turn.listed with
  | some error => (some error, s)
  | none =>
    let swept := sweep live s s.rows.length
    if (s.present .read, s.present .write) ≠ (swept.present .read, swept.present .write) ∧
        turn.changed.isSome then
      (turn.changed, swept)
    else (none, { swept with needsReconcile := false })

/-- Take the mutex; the error if the section cannot begin. -/
def lock (abandoned : Bool) (live : Nat → Bool) (turn : Turn) (s : State) : Option Int × State :=
  let s := if abandoned then { s with needsReconcile := true } else s
  if abandoned ∧ turn.retired.isSome then (turn.retired, s)
  else
    let s := if turn.watched then { s with needsReconcile := true } else s
    match turn.rearmed with
    | some error => (some error, s)
    | none => if s.needsReconcile then s.reconcile live turn else (none, s)

/-! ## Opening -/

/-- A write into the mapping by an open. -/
inductive Write where
  | number (next : Nat)
  | row (slot : Nat) (row : Row)
  | count (side : Side)
  | record (side : Side) (id : Nat)

def write (s : State) : Write → State
  | .number next => { s with nextId := next }
  | .row slot row =>
    { s with rows := s.rows.set slot (some row), history := .published row.id :: s.history }
  | .count side => { s with present := Function.update s.present side (s.present side + 1) }
  | .record side id =>
    { s.note side id with generation := Function.update s.generation side id }

def writes (s : State) (l : List Write) : State := l.foldl write s

/-- The generation on `side` that a new row is published with: an endpoint that
is there already counts as seen only up to the one before. -/
def noted (s : State) (side : Side) : Nat :=
  if s.present side ≠ 0 then s.generation side - 1 else s.generation side

/-- The count and the generation of a side, if the row has access to it. -/
def recordingOn (row : Row) (side : Side) : List Write :=
  if row.access side then [.count side, .record side row.id] else []

def recording (row : Row) : List Write := recordingOn row .read ++ recordingOn row .write

/-- The writes that publish a row, its identity first. -/
def publication (slot : Nat) (row : Row) : List Write := .row slot row :: recording row

/-- The checks of an open and the row it is going to publish. -/
def reserve (flags : Nat) (access : Side → Bool) (s : State) : Except Int (Nat × Row) × State :=
  if access .write ∧ ¬ access .read ∧ flags &&& O_NONBLOCK ≠ 0 ∧ s.present .read = 0 then
    (.error ENXIO, s)
  else
    let s :=
      if s.present .read = 0 ∧ s.present .write = 0 then { s with head := 0, length := 0 } else s
    match s.rows.findIdx? Option.isNone with
    | none => (.error ENFILE, s)
    | some slot =>
      if s.nextId + 1 < 2 ^ 64 then
        (.ok (slot, ⟨s.nextId, s.noted .write, s.noted .read, flags, access⟩), s)
      else (.error ENFILE, s)

/-- `flags & O_ACCMODE`. -/
def accessOf (flags : Nat) : Option (Side → Bool) :=
  match flags &&& O_ACCMODE with
  | 0 => some fun side => side = .read
  | 1 => some fun side => side = .write
  | 2 => some fun _ => true
  | _ => none

/-! ## What an endpoint asks -/

/-- A blocking open of the row's side may return. -/
def connected (s : State) (row : Row) : Bool :=
  if row.access .read ∧ ¬ row.access .write then
    decide (0 < s.present .write ∨ s.generation .write ≠ row.readGeneration)
  else decide (0 < s.present .read ∨ s.generation .read ≠ row.writeGeneration)

structure Readiness where
  readable : Bool
  writable : Bool
  hangup : Bool
  error : Bool

def readiness (s : State) (row : Row) : Readiness where
  readable := row.access .read && decide (0 < s.length)
  writable := row.access .write && decide (s.length < CAPACITY)
  hangup := row.access .read && s.present .write == 0 && s.generation .write != row.readGeneration
  error := row.access .write && s.present .read == 0

end State

/-! ## The system -/

/-- The mapping, the tokens that exist, and whether the last owner of the mutex
died with it. -/
structure System where
  state : State
  tokens : List Nat
  abandoned : Bool

inductive Event where
  /-- The last holder of a token goes. -/
  | close (id : Nat)
  /-- A process attaches, or consumes a notification it cannot act on. -/
  | invalidate
  /-- A locked section that leaves the endpoints alone: readiness, a wait. -/
  | lock (turn : Turn)
  /-- The owner dies in its scan, after so many rows. -/
  | dieScanning (turn : Turn) (slots : Nat)
  /-- An open; the owner dies after so many writes, if at all. -/
  | openFifo (turn : Turn) (flags : Nat) (token : Option Int) (death : Option Nat)

namespace System

def initial : System where
  state :=
    { head := 0, length := 0, nextId := 1, generation := fun _ => 0, present := fun _ => 0
      needsReconcile := true, rows := List.replicate ROWS none, history := [] }
  tokens := []
  abandoned := false

def live (sys : System) (id : Nat) : Bool := decide (id ∈ sys.tokens)

/-- The locked section begins: the error if it cannot, and the mapping. -/
def locked (sys : System) (turn : Turn) : Option Int × State :=
  sys.state.lock sys.abandoned sys.live turn

/-- The first locked section of an open, up to the publication of its row. -/
def openFifo (sys : System) (turn : Turn) (flags : Nat) (token : Option Int)
    (death : Option Nat) : System :=
  match State.accessOf flags with
  | none => sys
  | some access =>
    match sys.locked turn with
    | (some _, s) => { sys with state := s, abandoned := false }
    | (none, s) =>
      match s.reserve flags access with
      | (.error _, s) => { sys with state := s, abandoned := false }
      | (.ok (slot, row), s) =>
        let plan := .number (row.id + 1) :: if token.isNone then State.publication slot row else []
        { state := s.writes (plan.take (death.getD plan.length))
          -- The token is created between the first two writes.
          tokens :=
            if token.isNone ∧ death ≠ some 0 then row.id :: sys.tokens else sys.tokens
          abandoned := death.isSome }

def step (sys : System) : Event → System
  | .close id => { sys with tokens := sys.tokens.filter (· ≠ id) }
  | .invalidate => { sys with state := { sys.state with needsReconcile := true } }
  | .lock turn => { sys with state := (sys.locked turn).2, abandoned := false }
  | .dieScanning turn slots =>
    if sys.state.needsReconcile ∨ sys.abandoned ∨ turn.watched then
      { sys with
        state := State.sweep sys.live { sys.state with needsReconcile := true } slots
        abandoned := true }
    else { sys with abandoned := true }
  | .openFifo turn flags token death => sys.openFifo turn flags token death

end System

end Kinakaze.Fifo.Presence
