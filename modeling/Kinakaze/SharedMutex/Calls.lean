import Kinakaze.Library.Run
import Mathlib.Algebra.Ring.Int.Defs
import Mathlib.Algebra.Ring.Nat

/-!
# Process-shared mutexes

A mutex in shared memory is a named kernel mutex, which the system releases as
abandoned when its owner dies, and five words beside it.  Each thread keeps its
own table of what it holds.  One step of a thread is one load or store of a
word, one call on the kernel mutex, or one look at its table.
-/

namespace Kinakaze.SharedMutex

open Library

/-- `INCONSISTENT`. -/
def inconsistent : Nat := 2 ^ 31 - 1

/-- `NOT_RECOVERABLE`. -/
def notRecoverable : Nat := inconsistent - 1

/-- The bound of the recursion count. -/
def countLimit : Nat := 2 ^ 32

def ebusy : Nat := 16
def edeadlk : Nat := 35
def eagain : Nat := 11

/-- A native thread id.  An id that is free again may be taken by a later thread. -/
structure Thread where
  id : Nat
  valid : id ≠ 0 ∧ id ≠ inconsistent ∧ id ≠ notRecoverable
  deriving DecidableEq

inductive Variety
  | normal
  | recursive
  | errorcheck
  deriving DecidableEq

/-- What the object says of itself; a destroyed one says nothing. -/
structure Kind where
  robust : Bool
  variety : Variety
  deriving DecidableEq

/-- `lock`, `timedlock` and `trylock`. -/
inductive Mode
  | blocking
  | timed
  | trying
  deriving DecidableEq

inductive Call
  | acquire (mode : Mode)
  | unlock
  | consistent
  | destroy

/-- How an acquire returns. -/
inductive Code
  | ok
  | ownerDead
  | notRecoverable
  | failed (errno : Nat)

/-- Where a thread is in its call. -/
inductive Pc
  | idle
  | acquireKind (mode : Mode)
  | acquireOwner (mode : Mode) (kind : Kind)
  | acquireHeld (mode : Mode) (kind : Kind)
  | countLoad
  | countStore (depth : Nat)
  | waitSelf
  | wait (mode : Mode) (kind : Kind)
  | enteredOwner (mode : Mode) (kind : Kind) (abandoned : Bool)
  | enteredTid (mode : Mode) (kind : Kind) (abandoned : Bool)
  | refuse
  | lost (mode : Mode)
  | storeOwner (abandoned : Bool)
  | storeCount (abandoned : Bool)
  | storeUsers (abandoned : Bool)
  | storeTid (abandoned : Bool)
  | insert (abandoned : Bool)
  | unlockHeld
  | unlockCount
  | unlockLower (depth : Nat)
  | unlockOwner
  | unlockStore (value : Nat)
  | clearCount
  | clearUsers
  | clearTid
  | release
  | forget
  | consistentKind
  | consistentHeld
  | consistentOwner
  | consistentStore
  | destroyTid
  | destroyKind
  deriving DecidableEq

structure State where
  /-- The kernel mutex. -/
  owner : Option Thread
  abandoned : Bool
  kind : Kind
  ownerWord : Nat
  countWord : Nat
  usersWord : Nat
  tidWord : Nat
  held : Thread → Bool
  pc : Thread → Pc

/-- `init`. -/
def State.start (variety : Variety) : State where
  owner := none
  abandoned := false
  kind := ⟨true, variety⟩
  ownerWord := 0
  countWord := 0
  usersWord := 0
  tidWord := 0
  held _ := false
  pc _ := .idle

/-- What can be seen of a step from outside. -/
inductive Event
  /-- An acquire begins. -/
  | called (t : Thread)
  /-- An acquire returns. -/
  | finished (t : Thread) (code : Code)
  /-- An unlock of an inner acquire. -/
  | lowered (t : Thread)
  /-- An unlock gives the mutex up for good. -/
  | condemned (t : Thread)
  | released (t : Thread)
  /-- `consistent` succeeds. -/
  | recovered (t : Thread)
  | destroyed
  /-- The thread dies; `owning` if the kernel mutex was its. -/
  | died (t : Thread) (owning : Bool)

inductive Input
  | call (t : Thread) (call : Call)
  | step (t : Thread)
  /-- A wait times out or fails, or the handle cannot be opened. -/
  | fail (t : Thread) (errno : Nat)
  | die (t : Thread)

def State.goto (s : State) (t : Thread) (pc : Pc) : State :=
  { s with pc := Function.update s.pc t pc }

/-- The acquire returns. -/
def State.finish (s : State) (t : Thread) (code : Code) : State × Option Event :=
  (s.goto t .idle, some (.finished t code))

/-- `ReleaseMutex`, which only the owner may. -/
def State.releaseMutex (s : State) (t : Thread) : State :=
  if s.owner = some t then { s with owner := none } else s

def Call.first : Call → Pc
  | .acquire mode => .acquireKind mode
  | .unlock => .unlockHeld
  | .consistent => .consistentKind
  | .destroy => .destroyTid

/-- The next step of the thread. -/
def State.advance (s : State) (t : Thread) : State × Option Event :=
  match s.pc t with
  | .idle => (s, none)
  -- `acquire`
  | .acquireKind mode => (s.goto t (.acquireOwner mode s.kind), none)
  | .acquireOwner mode kind =>
    if s.ownerWord = notRecoverable then s.finish t .notRecoverable
    else (s.goto t (.acquireHeld mode kind), none)
  | .acquireHeld mode kind =>
    if s.held t then
      if kind.variety = .recursive then (s.goto t .countLoad, none)
      else if mode = .trying then s.finish t (.failed ebusy)
      else if kind.variety = .errorcheck then s.finish t (.failed edeadlk)
      else (s.goto t .waitSelf, none)
    else (s.goto t (.wait mode kind), none)
  | .countLoad =>
    if s.countWord + 1 < countLimit then (s.goto t (.countStore s.countWord), none)
    else s.finish t (.failed eagain)
  | .countStore depth => { s with countWord := depth + 1 }.finish t .ok
  | .waitSelf => (s, none)
  | .wait mode kind =>
    if s.owner = none ∨ s.owner = some t then
      ({ s with owner := some t, abandoned := false }.goto t
        (.enteredOwner mode kind s.abandoned), none)
    else if mode = .trying then s.finish t (.failed ebusy)
    else (s, none)
  | .enteredOwner mode kind abandoned =>
    if s.ownerWord = notRecoverable then (s.goto t .refuse, none)
    else (s.goto t (.enteredTid mode kind abandoned), none)
  | .refuse => (s.releaseMutex t).finish t .notRecoverable
  | .enteredTid mode kind abandoned =>
    let abandoned := abandoned || s.tidWord ≠ 0
    if abandoned ∧ kind.robust = false then (s.goto t (.lost mode), none)
    else (s.goto t (.storeOwner abandoned), none)
  | .lost mode =>
    if mode = .trying then (s.releaseMutex t).finish t (.failed ebusy)
    else ((s.releaseMutex t).goto t .waitSelf, none)
  | .storeOwner abandoned =>
    ({ s with ownerWord := if abandoned then inconsistent else t.id }.goto t
      (.storeCount abandoned), none)
  | .storeCount abandoned => ({ s with countWord := 1 }.goto t (.storeUsers abandoned), none)
  | .storeUsers abandoned => ({ s with usersWord := 1 }.goto t (.storeTid abandoned), none)
  | .storeTid abandoned => ({ s with tidWord := t.id }.goto t (.insert abandoned), none)
  | .insert abandoned =>
    { s with held := Function.update s.held t true }.finish t
      (if abandoned then .ownerDead else .ok)
  -- `unlock`
  | .unlockHeld => (s.goto t (if s.held t then .unlockCount else .idle), none)
  | .unlockCount =>
    (s.goto t (if 1 < s.countWord then .unlockLower s.countWord else .unlockOwner), none)
  | .unlockLower depth =>
    ({ s with countWord := depth - 1 }.goto t .idle, some (.lowered t))
  | .unlockOwner =>
    (s.goto t (.unlockStore (if s.ownerWord = inconsistent then notRecoverable else 0)), none)
  | .unlockStore value =>
    ({ s with ownerWord := value }.goto t .clearCount,
      if value = notRecoverable then some (.condemned t) else none)
  | .clearCount => ({ s with countWord := 0 }.goto t .clearUsers, none)
  | .clearUsers => ({ s with usersWord := 0 }.goto t .clearTid, none)
  | .clearTid => ({ s with tidWord := 0 }.goto t .release, none)
  | .release =>
    if s.owner = some t then ((s.releaseMutex t).goto t .forget, some (.released t))
    else (s.goto t .idle, none)
  | .forget => ({ s with held := Function.update s.held t false }.goto t .idle, none)
  -- `consistent`
  | .consistentKind => (s.goto t (if s.kind.robust then .consistentHeld else .idle), none)
  | .consistentHeld => (s.goto t (if s.held t then .consistentOwner else .idle), none)
  | .consistentOwner =>
    (s.goto t (if s.ownerWord = inconsistent then .consistentStore else .idle), none)
  | .consistentStore => ({ s with ownerWord := t.id }.goto t .idle, some (.recovered t))
  -- `destroy`
  | .destroyTid => (s.goto t (if s.tidWord ≠ 0 then .idle else .destroyKind), none)
  | .destroyKind => ({ s with kind := ⟨false, .normal⟩ }.goto t .idle, some .destroyed)

/-- The thread is gone: the system abandons its kernel mutex, and its table goes with it. -/
def State.kill (s : State) (t : Thread) : State :=
  { s with
    owner := if s.owner = some t then none else s.owner
    abandoned := if s.owner = some t then true else s.abandoned
    held := Function.update s.held t false
    pc := Function.update s.pc t .idle }

/-- The thread can be told that its wait is over without the mutex. -/
def Pc.waiting : Pc → Bool
  | .wait _ _ | .waitSelf => true
  | _ => false

/-- One step, and what is seen of it. -/
def State.next (s : State) : Input → State × Option Event
  | .call t call =>
    if s.pc t = .idle then
      (s.goto t call.first, match call with
        | .acquire _ => some (.called t)
        | _ => none)
    else (s, none)
  | .step t => s.advance t
  | .fail t errno =>
    if (s.pc t).waiting then s.finish t (.failed errno) else (s, none)
  | .die t => (s.kill t, some (.died t (s.owner = some t)))

/-- What all threads see: the kernel mutex and the words. -/
def State.shared (s : State) : Option Thread × Bool × Kind × Nat × Nat × Nat × Nat :=
  (s.owner, s.abandoned, s.kind, s.ownerWord, s.countWord, s.usersWord, s.tidWord)

/-- Lines of `unlock` and `consistent`. -/
def Pc.releasing : Pc → Bool
  | .unlockHeld | .unlockCount | .unlockLower _ | .unlockOwner | .unlockStore _ | .clearCount
  | .clearUsers | .clearTid | .release | .forget | .consistentKind | .consistentHeld
  | .consistentOwner | .consistentStore => true
  | _ => false

end Kinakaze.SharedMutex

/-!
## What a robust mutex promises

The purpose of the mutex, apart from how it is kept: who holds it and how often,
and whether what it guards was left in a good state.  `Guard.accept` says which
events may happen next.

`Reading.asBuilt` differs from `Reading.asStated` in three points.  A holder
that was told of a dead owner may acquire a recursive mutex again before it
calls `consistent`.  A death between giving the mutex up for good and releasing
it leaves it given up.  And once the object is destroyed, only mutual exclusion
remains.
-/

namespace Kinakaze.SharedMutex

open Library

inductive Phase
  | good
  /-- An owner died, and nobody was told yet. -/
  | ownerDead
  /-- The holder was told, and has not called `consistent`. -/
  | inconsistent
  | notRecoverable
  | destroyed
  deriving DecidableEq

structure Guard where
  phase : Phase
  /-- The holder, and how many of its acquires are not unlocked. -/
  holder : Option (Thread × Nat)
  /-- The acquire a thread is in, and whether the mutex was not recoverable when it began. -/
  calls : Thread → Option Bool

def Guard.start : Guard := ⟨.good, none, fun _ => none⟩

/-- The acquire of `t` is over. -/
def Guard.done (g : Guard) (t : Thread) : Guard :=
  { g with calls := Function.update g.calls t none }

inductive Reading
  | asStated
  | asBuilt
  deriving DecidableEq

@[simp] theorem Guard.done_calls (g : Guard) (t : Thread) : (g.done t).calls t = none :=
  Function.update_self ..

theorem Guard.done_calls_of_ne (g : Guard) {t u : Thread} (hu : u ≠ t) :
    (g.done t).calls u = g.calls u :=
  Function.update_of_ne hu _ _

/-- The first acquire of `t` succeeds where the phase is `allowed`, and leaves `phase`. -/
def Guard.take (g : Guard) (t : Thread) (allowed phase : Phase) : Option Guard :=
  if g.holder = none then
    if g.phase = .destroyed then some { g.done t with holder := some (t, 1) }
    else if g.phase = allowed ∧ g.calls t = some false then
      some { g.done t with phase, holder := some (t, 1) }
    else none
  else none

/-- The phase when the owner of the kernel mutex dies. -/
def Guard.bereft (reading : Reading) (g : Guard) : Phase :=
  match g.phase with
  | .destroyed => .destroyed
  | .notRecoverable =>
    -- With a holder, the mutex is given up and not yet released.
    if reading = .asStated ∧ g.holder.isSome then .ownerDead else .notRecoverable
  | _ => .ownerDead

def Guard.accept (reading : Reading) (g : Guard) : Event → Option Guard
  | .called t =>
    some { g with calls := Function.update g.calls t (some (g.phase = .notRecoverable)) }
  | .finished t .ok =>
    match g.holder with
    | some (u, depth) =>
      if u = t ∧ (g.phase = .inconsistent → reading = .asBuilt) then
        some { g.done t with holder := some (t, depth + 1) }
      else none
    | none => g.take t .good .good
  | .finished t .ownerDead => g.take t .ownerDead .inconsistent
  | .finished t .notRecoverable =>
    if g.phase = .notRecoverable ∨ g.phase = .destroyed then some (g.done t) else none
  | .finished t (.failed _) =>
    if g.calls t ≠ some true ∨ g.phase = .destroyed then some (g.done t) else none
  | .lowered t =>
    match g.holder with
    | some (u, depth) =>
      if u = t ∧ 1 < depth then some { g with holder := some (t, depth - 1) } else none
    | none => none
  | .condemned t =>
    if g.phase = .destroyed then some g
    else if g.holder = some (t, 1) ∧ g.phase = .inconsistent then
      some { g with phase := .notRecoverable }
    else none
  | .released t =>
    if g.holder = some (t, 1) ∧ g.phase ≠ .inconsistent then some { g with holder := none }
    else none
  | .recovered t =>
    if g.phase = .destroyed then some g
    else if g.holder.map Prod.fst = some t ∧ g.phase = .inconsistent then
      some { g with phase := .good }
    else none
  | .destroyed =>
    match reading with
    | .asStated => some g
    | .asBuilt => some { g with phase := .destroyed }
  | .died t owning =>
    if owning then
      -- It held the mutex, or was about to.
      if g.holder.map Prod.fst = some t ∨ g.holder = none ∧ (g.calls t).isSome then
        some { g.done t with phase := g.bereft reading, holder := none }
      else none
    else if g.holder.map Prod.fst = some t then none
    else some (g.done t)

/-- The mutex and the guard that watches what is seen of it. -/
def watch (reading : Reading) (watched : State × Option Guard) (input : Input) :
    State × Option Guard :=
  let (s, event) := watched.1.next input
  (s, match event with
    | none => watched.2
    | some event => watched.2.bind (·.accept reading event))

/-- The guard after a run from the start, as long as it accepted everything. -/
def watched (reading : Reading) (variety : Variety) (inputs : List Input) : State × Option Guard :=
  run (watch reading) (State.start variety, some Guard.start) inputs

end Kinakaze.SharedMutex
