import Kinakaze.Library.Run

/-!
# Private condition waits and timed mutexes

Every thread has one event, which releases one wait and is then reset.  A row
in a queue says that a thread waits on a condition or a timed mutex.  One step
is a section of the queue lock, a wait on events, a look at the counter of
timed waiters, a native lock call, or one call whose outcome is left open: the
`answer` of the step.
-/

namespace Kinakaze.Parking

open Library

/-- `pthread_self`. -/
abbrev Thread := Nat

def eownerdead : Nat := 130
def einval : Nat := 22

/-- An address, of a condition or else of a timed mutex. -/
structure Key where
  address : Nat
  condition : Bool
  deriving DecidableEq

structure Row where
  token : Nat
  thread : Thread
  key : Key
  selected : Bool

structure Ticket where
  key : Key
  token : Nat
  /-- The wait has a deadline. -/
  timed : Bool
  deriving DecidableEq

inductive Call
  | condition (address : Nat) (timed : Bool)
  | timedMutex (address : Nat)
  | signal (address : Nat) (all : Bool)
  | interrupt (thread : Thread)
  /-- Release of a native mutex, and then `released`. -/
  | release (address : Nat)

/-- Where a thread is in its call. -/
inductive Pc
  | idle
  -- `condition`
  | waitStart (address : Nat) (timed : Bool)
  | waitRegister (address : Nat) (timed : Bool)
  | waitUnlock (ticket : Ticket)
  | waitDrop (ticket : Ticket) (code : Nat)
  | waitReturn (selected : Bool) (code : Nat)
  | waitCancel (ticket : Ticket)
  | waitSelected (ticket : Ticket)
  | waitInterrupt (ticket : Ticket)
  | waitArm (ticket : Ticket)
  | waitSleep (ticket : Ticket)
  | waitFinish (ticket : Ticket) (result : Nat)
  | waitRelock (address : Nat) (selected : Bool) (result : Nat)
  | waitTest (address : Nat) (selected : Bool) (result : Nat) (error : Nat)
  | waitDeliver (address : Nat) (selected : Bool) (result : Nat)
  | waitRetest (address : Nat) (selected : Bool) (result : Nat)
  | waitReplace (address : Nat)
  | waitExit
  -- `timed_mutex`
  | timedRegister (address : Nat)
  | timedArm (ticket : Ticket)
  | timedTry (ticket : Ticket)
  | timedSleep (ticket : Ticket)
  | timedFinish (ticket : Ticket)
  -- the others
  | signalling (address : Nat) (all : Bool)
  | interrupting (thread : Thread)
  | releasing (address : Nat)
  | releasedCheck (address : Nat)
  | releasedSignal (address : Nat)
  deriving DecidableEq

structure State where
  /-- The rows of all queues, oldest first. -/
  rows : List Row
  tokens : Nat
  /-- `TIMED_WAITERS`. -/
  timedWaiters : Nat
  event : Thread → Bool
  /-- The native mutexes that are held. -/
  locked : Nat → Bool
  pc : Thread → Pc

def State.start : State where
  rows := []
  tokens := 1
  timedWaiters := 0
  event _ := false
  locked _ := false
  pc _ := .idle

/-- What can be seen of a step of a condition. -/
inductive Event
  | entered (t : Thread) (address : Nat)
  /-- Interruption or cancellation is noticed. -/
  | noticed (t : Thread)
  /-- The ticket is finished or dropped. -/
  | left (t : Thread)
  | returned (t : Thread) (code : Nat)
  /-- The thread is cancelled. -/
  | exited (t : Thread)
  | signalled (address : Nat) (all : Bool) (woken : List Thread)
  /-- A cancelled waiter signals in its turn. -/
  | handed (t : Thread) (address : Nat) (woken : List Thread)

inductive Input
  | call (t : Thread) (call : Call)
  | step (t : Thread) (answer : Nat)
  /-- Somebody locks the native mutex, if it is free. -/
  | lock (address : Nat)

def State.goto (s : State) (t : Thread) (pc : Pc) : State :=
  { s with pc := Function.update s.pc t pc }

/-- `signal_rows` on the queue of `key`: the rows, and the threads whose events are set. -/
def signalRows (key : Key) : Nat → List Row → List Row × List Thread
  | _, [] => ([], [])
  | 0, rows => (rows, [])
  | count + 1, row :: rows =>
    if row.key ≠ key ∨ (key.condition ∧ row.selected) then
      let (rows, woken) := signalRows key (count + 1) rows
      (row :: rows, woken)
    else
      let (rows, woken) := signalRows key count rows
      ({ row with selected := true } :: rows, row.thread :: woken)

/-- A section of the queue lock that signals; there are fewer rows than `usize::MAX`. -/
def State.signal (s : State) (key : Key) (all : Bool) : State × List Thread :=
  let (rows, woken) := signalRows key (if all then s.rows.length else 1) s.rows
  ({ s with rows, event := fun t => t ∈ woken || s.event t }, woken)

def State.register (s : State) (t : Thread) (key : Key) : State :=
  { s with
    rows := s.rows ++ [⟨s.tokens, t, key, false⟩]
    tokens := s.tokens + 1
    timedWaiters := if key.condition then s.timedWaiters else s.timedWaiters + 1
    event := Function.update s.event t false }

def Row.isOf (ticket : Ticket) (row : Row) : Bool :=
  row.key = ticket.key && row.token = ticket.token

def State.selected (s : State) (ticket : Ticket) : Bool :=
  (s.rows.find? (·.isOf ticket)).any (·.selected)

def State.finish (s : State) (ticket : Ticket) : State :=
  { s with
    rows := s.rows.eraseP (·.isOf ticket)
    timedWaiters := if ticket.key.condition then s.timedWaiters else s.timedWaiters - 1 }

def Call.first : Call → Pc
  | .condition address timed => .waitStart address timed
  | .timedMutex address => .timedRegister address
  | .signal address all => .signalling address all
  | .interrupt thread => .interrupting thread
  | .release address => .releasing address

/-- The step of `condition` that follows a look for cancellation: hand over and exit, or go on. -/
def State.test (s : State) (t : Thread) (address : Nat) (selected : Bool) (answer : Nat)
    (otherwise : State × Option Event) : State × Option Event :=
  if answer = 0 then otherwise
  else (s.goto t (if selected then .waitReplace address else .waitExit), none)

/-- The next step of the thread. -/
def State.advance (s : State) (t : Thread) (answer : Nat) : State × Option Event :=
  match s.pc t with
  | .idle => (s, none)
  -- Cancellation, a bad or expired deadline, and missing handles end the call here.
  | .waitStart address timed =>
    if answer = 0 then (s.goto t (.waitRegister address timed), none)
    else (s.goto t .idle, none)
  | .waitRegister address timed =>
    ((s.register t ⟨address, true⟩).goto t (.waitUnlock ⟨⟨address, true⟩, s.tokens, timed⟩),
      some (.entered t address))
  | .waitUnlock ticket =>
    (s.goto t (if answer = 0 then .waitCancel ticket else .waitDrop ticket answer), none)
  | .waitDrop ticket code =>
    ((s.finish ticket).goto t (.waitReturn (s.selected ticket) code), some (.left t))
  | .waitReturn _ code => (s.goto t .idle, some (.returned t code))
  | .waitCancel ticket =>
    if answer = 0 then (s.goto t (.waitSelected ticket), none)
    else (s.goto t (.waitFinish ticket 0), some (.noticed t))
  | .waitSelected ticket =>
    (s.goto t (if s.selected ticket then .waitFinish ticket 0 else .waitInterrupt ticket), none)
  | .waitInterrupt ticket =>
    if answer = 0 then (s.goto t (.waitArm ticket), none)
    else (s.goto t (.waitFinish ticket 0), some (.noticed t))
  | .waitArm ticket =>
    (s.goto t (if ticket.timed ∧ answer ≠ 0 then .waitFinish ticket answer
      else .waitSleep ticket), none)
  -- 0 is the thread's own event, 1 the interrupt handle or the timer.
  | .waitSleep ticket =>
    if answer = 0 then
      if s.event t then
        ({ s with event := Function.update s.event t false }.goto t (.waitCancel ticket), none)
      else (s, none)
    else (s.goto t (if answer = 1 then .waitCancel ticket else .waitFinish ticket einval), none)
  | .waitFinish ticket result =>
    ((s.finish ticket).goto t (.waitRelock ticket.key.address (s.selected ticket) result),
      some (.left t))
  | .waitRelock address selected result =>
    if answer ≠ 0 ∧ answer ≠ eownerdead then (s.goto t .idle, some (.returned t answer))
    else (s.goto t (.waitTest address selected result answer), none)
  | .waitTest address selected result error =>
    s.test t address selected answer (if error ≠ 0 then (s.goto t .idle, some (.returned t error))
      else (s.goto t (.waitDeliver address selected result), none))
  | .waitDeliver address selected result =>
    if answer ≠ 0 then (s.goto t .idle, some (.returned t answer))
    else (s.goto t (.waitRetest address selected result), none)
  | .waitRetest address selected result =>
    s.test t address selected answer
      (s.goto t .idle, some (.returned t (if selected then 0 else result)))
  | .waitReplace address =>
    let (s, woken) := s.signal ⟨address, true⟩ false
    (s.goto t .waitExit, some (.handed t address woken))
  | .waitExit => (s.goto t .idle, some (.exited t))
  | .timedRegister address =>
    ((s.register t ⟨address, false⟩).goto t (.timedArm ⟨⟨address, false⟩, s.tokens, true⟩), none)
  | .timedArm ticket =>
    (s.goto t (if answer = 0 then .timedTry ticket else .timedFinish ticket), none)
  | .timedTry ticket =>
    if s.locked ticket.key.address then (s.goto t (.timedSleep ticket), none)
    else ({ s with locked := Function.update s.locked ticket.key.address true }.goto t
      (.timedFinish ticket), none)
  | .timedSleep ticket =>
    if answer = 0 then
      if s.event t then
        ({ s with event := Function.update s.event t false }.goto t (.timedArm ticket), none)
      else (s, none)
    else (s.goto t (if answer = 1 then .timedArm ticket else .timedFinish ticket), none)
  | .timedFinish ticket => ((s.finish ticket).goto t .idle, none)
  | .signalling address all =>
    let (s, woken) := s.signal ⟨address, true⟩ all
    (s.goto t .idle, some (.signalled address all woken))
  | .interrupting thread =>
    ({ s with event := fun u => s.event u ||
      (u = thread && s.rows.any fun row => row.key.condition && row.thread = thread) }.goto t
        .idle, none)
  | .releasing address =>
    ({ s with locked := Function.update s.locked address false }.goto t
      (.releasedCheck address), none)
  | .releasedCheck address =>
    (s.goto t (if s.timedWaiters = 0 then .idle else .releasedSignal address), none)
  | .releasedSignal address =>
    (((s.signal ⟨address, false⟩ true).1).goto t .idle, none)

/-- One step, and what is seen of it. -/
def State.next (s : State) : Input → State × Option Event
  | .call t call => if s.pc t = .idle then (s.goto t call.first, none) else (s, none)
  | .step t answer => s.advance t answer
  | .lock address => ({ s with locked := Function.update s.locked address true }, none)

end Kinakaze.Parking

/-!
## What a signal owes

The purpose of the queues, apart from how threads are woken: who waits on which
condition, oldest first, and which signals are still to be answered.  A waiter
that leaves with a signal owes it: it returns with it, or hands it over.
-/

namespace Kinakaze.Parking

open Library

/-- A registered waiter, and whether a signal was given to it. -/
structure Entry where
  thread : Thread
  address : Nat
  chosen : Bool

structure Ledger where
  queue : List Entry
  /-- The condition whose signal the thread has left its wait with, and not answered. -/
  owing : Thread → Option Nat
  /-- The thread noticed that it is interrupted or cancelled. -/
  excused : Thread → Bool

def Ledger.start : Ledger := ⟨[], fun _ => none, fun _ => false⟩

/-- The waiters on `address` that have no signal, oldest first. -/
def Ledger.due (ledger : Ledger) (address : Nat) : List Thread :=
  (ledger.queue.filter fun entry => entry.address = address ∧ entry.chosen = false).map Entry.thread

/-- The signal goes to `woken`. -/
def Ledger.choose (ledger : Ledger) (address : Nat) (woken : List Thread) : Ledger :=
  { ledger with queue := ledger.queue.map fun entry =>
      if entry.address = address ∧ entry.thread ∈ woken then { entry with chosen := true }
      else entry }

/-- A signal is for the oldest waiter without one, a broadcast for all of them. -/
def Ledger.signalled (ledger : Ledger) (address : Nat) (all : Bool) (woken : List Thread) :
    Option Ledger :=
  if woken = (if all then ledger.due address else (ledger.due address).take 1) then
    some (ledger.choose address woken)
  else none

def Ledger.accept (ledger : Ledger) : Event → Option Ledger
  | .entered t address =>
    if t ∈ ledger.queue.map Entry.thread ∨ (ledger.owing t).isSome then none
    else some { ledger with
      queue := ledger.queue ++ [⟨t, address, false⟩]
      excused := Function.update ledger.excused t false }
  | .noticed t => some { ledger with excused := Function.update ledger.excused t true }
  | .left t =>
    some { ledger with
      queue := ledger.queue.filter (·.thread ≠ t)
      owing := Function.update ledger.owing t
        ((ledger.queue.find? fun entry => entry.thread = t && entry.chosen).map Entry.address) }
  | .returned t code =>
    if t ∈ ledger.queue.map Entry.thread then none
    else if (ledger.owing t).isSome then
      if code = 0 ∨ code = eownerdead then
        some { ledger with owing := Function.update ledger.owing t none }
      else none
    else if code = 0 ∧ ledger.excused t = false then none
    else some ledger
  | .exited t =>
    if t ∈ ledger.queue.map Entry.thread ∨ (ledger.owing t).isSome then none
    else some ledger
  | .signalled address all woken => ledger.signalled address all woken
  | .handed t address woken =>
    if ledger.owing t = some address then
      { ledger with owing := Function.update ledger.owing t none }.signalled address false woken
    else none

/-- The threads and the ledger that watches what is seen of them. -/
def watch (watched : State × Option Ledger) (input : Input) : State × Option Ledger :=
  let (s, event) := watched.1.next input
  (s, match event with
    | none => watched.2
    | some event => watched.2.bind (·.accept event))

/-- The ledger after a run from the start, as long as it accepted everything. -/
def watched (inputs : List Input) : State × Option Ledger :=
  run watch (State.start, some Ledger.start) inputs

end Kinakaze.Parking
