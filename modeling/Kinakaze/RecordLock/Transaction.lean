import Kinakaze.Library.Run
import Kinakaze.RecordLock.State

/-!
# Transactions on the record-lock table

A transaction loads the active bank, drops what dead owners and dead threads
left, runs its body, and publishes the other bank if anything changed.  The
mutex makes that one step.  Waiters are notified after the mutex is released,
so other transactions can come in between.  A waiter's event is named by its
thread, which opens it before it publishes the waiter and closes it after the
waiter is withdrawn (`setOwned_withdrawn`), so the name opens the event.

A `System` is the active bank with the notifications still to be sent and, for
the sake of the argument only, the threads whose event has been set since they
published their waiter.
-/

namespace Kinakaze.RecordLock

open Library

/-- The bank that `active` names. -/
structure Bank where
  locks : List Record
  waiters : List Waiter

/-- What the registry and the system answer during one transaction. -/
structure Native where
  /-- `Owner::alive`. -/
  alive : Owner → Bool
  /-- The host process of `Owner::live_entry`. -/
  liveEntry : Owner → Option Nat
  /-- The thread opens, belongs to its host process and has not ended. -/
  threadRuns : Thread → Bool

namespace State

def load (bank : Bank) : Except Errno State :=
  if LOCK_CAPACITY < bank.locks.length ∨ WAITER_CAPACITY < bank.waiters.length then .error Errno.EIO
  else .ok ⟨bank.locks, bank.waiters, false, false⟩

def commit (s : State) : Except Errno Bank :=
  if LOCK_CAPACITY < s.locks.length ∨ WAITER_CAPACITY < s.waiters.length then .error .ENOLCK
  else .ok ⟨s.locks, s.waiters⟩

/-- The waiter's owner lives, and its thread runs in its host process. -/
def waits (native : Native) (w : Waiter) : Bool :=
  native.alive w.wanted.owner && native.liveEntry w.process == some w.thread.host &&
    native.threadRuns w.thread

def reap (s : State) (native : Native) : State :=
  let locks := s.locks.filter fun r => native.alive r.owner
  let waiters := s.waiters.filter (waits native)
  let dropped := decide (s.locks.length ≠ locks.length)
  { locks := locks
    waiters := waiters
    dirty := s.dirty || dropped || decide (s.waiters.length ≠ waiters.length)
    wake := s.wake || dropped }

end State

/-- The body of a transaction: its result, and the state it leaves either way. -/
abbrev Body (T : Type) := State → Except Errno T × State

/-- Run a transaction; the last component is what `notify` is called with. -/
def transaction {T : Type} (native : Native) (body : Body T) (bank : Bank) :
    Except Errno T × Bank × Option (List Waiter) :=
  match State.load bank with
  | .error e => (.error e, bank, none)
  | .ok loaded =>
    let (result, state) := body (loaded.reap native)
    let woken := if state.wake then some state.waiters else none
    if state.dirty then
      match state.commit with
      | .error e => (.error e, bank, none)
      | .ok bank => (result, bank, woken)
    else (result, bank, woken)

/-! ## Bodies -/

/-- What `set_owned` knows when its loop begins.  `description` is the open file
description of an OFD request, and no `kind` unlocks. -/
structure Call where
  inode : Inode
  process : Owner
  description : Option Nat
  range : Range
  kind : Option Kind
  wait : Bool
  thread : Thread

namespace Call

/-- The check that `set_owned` begins with. -/
def new (inode : Inode) (process : Owner) (description : Option Nat) (start stop : Nat)
    (kind : Option Kind) (wait : Bool) (thread : Thread) : Except Errno Call := do
  let range ← Range.new start stop
  return ⟨inode, process, description, range, kind, wait, thread⟩

def ofd (call : Call) : Bool := call.description.isSome

def owner (call : Call) : Owner :=
  match call.description with
  | some id => .description id
  | none => call.process

def wanted (call : Call) : Record :=
  ⟨call.inode, call.owner, call.range, call.kind.getD .read⟩

def waiter (call : Call) : Waiter := ⟨call.wanted, call.process, call.thread⟩

end Call

/-- The record that blocks a request; an unlock is never blocked. -/
def State.blocker (s : State) (call : Call) : Option Record :=
  if call.kind.isSome then s.conflict call.wanted else none

/-- The body of `set_owned`'s transaction.  `valid` is whether the descriptor is
still the one the call began with, `event` the error if there is no wait event
yet and none can be created.
The result is the owner to wait for, or nothing when the request is done. -/
def setOwned (call : Call) (valid : Bool) (event : Option Nat) : Body (Option Owner) :=
  fun s =>
  if ¬ valid then (.error .EBADF, s.removeWaiter call.waiter)
  else
    match s.blocker call with
    | some blocker =>
      if ¬ call.wait then (.error .EAGAIN, s)
      -- Linux does not perform deadlock detection for OFD locks.
      else if ¬ call.ofd ∧ s.wouldDeadlock call.wanted then
        (.error .EDEADLK, s.removeWaiter call.waiter)
      else
        match event with
        | some error => (.error (.win32 error), s)
        | none =>
          if s.waiters.any fun candidate => candidate.thread = call.thread then
            (.ok (some blocker.owner), s)
          else if s.waiters.length = WAITER_CAPACITY then (.error .ENOLCK, s)
          else
            (.ok (some blocker.owner),
              { s with waiters := s.waiters ++ [call.waiter], dirty := true })
    | none =>
      match (s.removeWaiter call.waiter).replace call.wanted call.kind.isNone with
      | (.ok (), s) => (.ok none, s)
      | (.error e, s) => (.error e, s)

/-- After a wait that failed. -/
def withdraw (waiter : Waiter) : Body Unit := fun s => (.ok (), s.removeWaiter waiter)

def releaseInodes (owner : Owner) (inodes : List Inode) : Body Unit := fun s =>
  let locks := s.locks.filter fun r => r.owner ≠ owner ∨ r.inode ∉ inodes
  let dropped := decide (s.locks.length ≠ locks.length)
  (.ok (), { s with locks := locks, dirty := s.dirty || dropped, wake := s.wake || dropped })

/-- What `F_GETLK` reports. -/
structure Conflict where
  kind : Kind
  range : Range
  pid : Int

def queryOwned (wanted : Record) (valid : Bool) : Body (Option Conflict) := fun s =>
  if ¬ valid then (.error .EBADF, s)
  else
    (.ok ((s.conflict wanted).map fun r =>
      ⟨r.kind, r.range, if r.owner.pid = 0 then -1 else r.owner.pid⟩), s)

/-! ## The system -/

inductive Request where
  | set (call : Call) (valid : Bool) (event : Option Nat)
  | withdraw (waiter : Waiter)
  | release (owner : Owner) (inodes : List Inode)
  | query (wanted : Record) (valid : Bool)

/-- The bank a request leaves and the waiters it wakes. -/
def Request.run (native : Native) (bank : Bank) : Request → Bank × Option (List Waiter)
  | .set call valid event => (transaction native (setOwned call valid event) bank).2
  | .withdraw waiter => (transaction native (RecordLock.withdraw waiter) bank).2
  | .release owner inodes => (transaction native (releaseInodes owner inodes) bank).2
  | .query wanted valid => (transaction native (queryOwned wanted valid) bank).2

structure System where
  bank : Bank
  notifying : List (List Waiter)
  signalled : List Thread

inductive Event where
  /-- A whole transaction, up to the release of the mutex. -/
  | transact (native : Native) (request : Request)
  /-- One of the transactions that released the mutex sends its notifications. -/
  | notify (index : Nat)

namespace System

def initial : System := ⟨⟨[], []⟩, [], []⟩

def step (sys : System) : Event → System
  | .transact native request =>
    let (bank, woken) := request.run native sys.bank
    { bank := bank
      notifying := sys.notifying ++ woken.toList
      -- A thread that is published anew has not been signalled yet.
      signalled := sys.signalled.filter fun t =>
        (sys.bank.waiters.filter (State.waits native)).any fun w => w.thread = t }
  | .notify index =>
    match sys.notifying[index]? with
    | some waiters =>
      { sys with
        notifying := sys.notifying.eraseIdx index
        signalled := sys.signalled ++ waiters.map Waiter.thread }
    | none => sys

end System

end Kinakaze.RecordLock
