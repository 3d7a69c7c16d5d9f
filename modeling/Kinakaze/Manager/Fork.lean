import Kinakaze.Manager.State

/-!
# Fork transactions

A fork goes through `prepared → adopted → ready → committed`; until commit it
may be aborted.  Preparing freezes the parent's view of module state: copy and
reset states get objects of their own, share states keep the parent's object.
A 256-bit ticket admits one new native worker as the child.
-/

namespace Kinakaze.Manager

open Kinakaze.Library Kinakaze.Protocol

/-- Fork reservations whose child has not attached yet. -/
def StateManager.reservedProcesses (m : StateManager) : Nat :=
  countIf m.transactions fun t => t.state == .prepared

def checkProcessCapacity : Rpc PUnit := do
  let m ← get
  failIf (m.limits.maxProcesses ≤ min (m.processes.size + m.reservedProcesses) usizeMax)
    (limit "process limit reached")

def allocateIdentity (parentPid : Nat) : Rpc ProcessIdentity := do
  let m ← get
  failIf (i32Max < m.nextPid) (limit "guest PID space exhausted")
  set { m with nextPid := m.nextPid + 1 }
  -- PIDs are never reused within an epoch, therefore generation stays one.
  return ⟨m.epoch, m.nextPid, 1, parentPid⟩

/-- The child of fork `id` attaches as `peer` and takes the reserved snapshot. -/
def StateManager.attachFork (m : StateManager) (id : Nat) (child : ProcessIdentity)
    (peer : PeerIdentity) (snapshot : Snapshot) : StateManager :=
  { m with
    transactions := m.transactions.modify id fun t =>
      { t with snapshot := none, state := .adopted }
    processes := m.processes.insert child.pid
      { identity := child
        peer := peer
        snapshot := snapshot
        state := .pending id
        requestKeys := ∅
        execRequestKeys := ∅
        prewarm := .fresh } }

def adopt (token : String) (peer : PeerIdentity) : Rpc ProcessIdentity := do
  failIf (token.utf8ByteSize ≠ 64) (error .unauthorized "invalid adoption ticket")
  let m ← get
  let (id, transaction) ←
    require (findEntry m.transactions fun t => secretEqual t.ticket.token token)
      (error .unauthorized "unknown adoption ticket")
  failIf (transaction.state = .aborted) (error .aborted "adoption ticket was revoked")
  failIf (transaction.state ≠ .prepared) (error .conflict "adoption ticket was already consumed")
  let identity := transaction.ticket.child
  let snapshot ← unwrap transaction.snapshot "adopt: prepared transaction owns snapshot"
  set (m.attachFork id identity peer snapshot)
  return identity

/-- The object a child gets for a state of its parent; shared states have none
of their own. -/
def Object.forked (object : Object) : Option Object :=
  match object.fork with
  | .share => none
  | .copy => some object
  | .reset => some { object with value := object.initial }

/-- The copy loop of `prepareFork`, over the remaining entries of the parent's
state table; `states` is the child's table so far. -/
def copyStates : List (StateKey × Nat) → StateTable → Rpc StateTable
  | [], states => return states
  | (key, objectId) :: rest, states => do
    let m ← get
    let object ← unwrap m.objects[objectId]? "prepareFork: object"
    match object.forked with
    | none => copyStates rest states
    | some forked =>
      set (m.insertObject forked)
      copyStates rest (states.insert key m.nextObject)

/-- File a fork transaction of process `pid` under the request key. -/
def StateManager.addTransaction (m : StateManager) (pid requestKey : Nat)
    (transaction : Transaction) : StateManager :=
  { m with
    nextTransaction := m.nextTransaction + 1
    transactions := m.transactions.insert m.nextTransaction transaction
    processes := m.processes.modify pid fun p =>
      { p with requestKeys := p.requestKeys.insert requestKey m.nextTransaction } }

def prepareFork (pid requestKey parentPid : Nat) (entropy : Entropy) : Rpc Reply := do
  let m ← get
  let process ← unwrap m.processes[pid]? "prepareFork: process"
  match process.requestKeys[requestKey]? with
  | some id =>
    let transaction ← unwrap m.transactions[id]? "prepareFork: transaction"
    failIf (transaction.requestedParent ≠ parentPid)
      (error .conflict "fork request key reused with different parent")
    failIf (transaction.state = .aborted)
      (error .aborted "fork request was aborted; use a new request key")
    return .forkPrepared transaction.ticket
  | none =>
    failIf (m.limits.maxRequestKeysPerProcess ≤
        process.requestKeys.size + process.execRequestKeys.size)
      (limit "fork request-key limit reached")
    failIf (m.limits.maxTransactions ≤ m.transactions.size + m.execTransactions.size
        ∨ m.nextTransaction = u64Max)
      (limit "fork transaction limit reached")
    checkProcessCapacity
    let objects ← (valuesOf process.snapshot.states).mapM fun id =>
      unwrap m.objects[id]? "prepareFork: object"
    checkObjectCapacity (objects.countP fun object => object.fork != .share)
    let token ← secureTicket entropy
    -- All fallible validation and entropy acquisition precede state mutation.
    let child ← allocateIdentity parentPid
    let states ← copyStates process.snapshot.states.toList process.snapshot.states
    let m ← get
    let ticket : ForkTicket := ⟨m.nextTransaction, token, child⟩
    set (m.addTransaction pid requestKey
      { parent := pid
        requestedParent := parentPid
        ticket := ticket
        snapshot := some { process.snapshot with states := states }
        state := .prepared })
    return .forkPrepared ticket

def StateManager.setReady (m : StateManager) (id : Nat) : StateManager :=
  { m with transactions := m.transactions.modify id fun t => { t with state := .ready } }

def markReady (pid : Nat) : Rpc Reply := do
  let m ← get
  let process ← unwrap m.processes[pid]? "markReady: process"
  match process.state with
  | .pending id =>
    let _ ← unwrap m.transactions[id]? "markReady: transaction"
    set (m.setReady id)
    return .ok
  | .active => return .ok
  | .aborted => throw (error .aborted "fork was aborted")

def ownedTransaction (pid id : Nat) : Rpc Transaction := do
  let m ← get
  let transaction ← require m.transactions[id]? (error .notFound "unknown fork transaction")
  failIf (transaction.parent ≠ pid)
    (error .unauthorized "only transaction parent may commit or abort")
  return transaction

def awaitForkReady (pid id : Nat) : Rpc Reply := do
  let transaction ← ownedTransaction pid id
  match transaction.state with
  | .ready | .committed => return .ok
  | .aborted => throw (error .aborted "fork transaction was aborted")
  | .prepared | .adopted => throw (error .notReady "child has not acknowledged readiness")

/-- Claim the bootstrap of a prepared fork. -/
def nativeFork (pid id : Nat) (spec : Spec) : Rpc Reply := do
  failIf (spec.valid = false) (error .invalidRequest "invalid native fork specification")
  let transaction ← ownedTransaction pid id
  failIf (transaction.state ≠ .prepared) (error .conflict "fork bootstrap already adopted")
  return .ok

/-- Commit fork `id`: its child becomes an ordinary process. -/
def StateManager.activateChild (m : StateManager) (child id : Nat) : StateManager :=
  { m with
    processes := m.processes.modify child fun p => { p with state := .active }
    transactions := m.transactions.modify id fun t => { t with state := .committed } }

def commitFork (pid id : Nat) : Rpc Reply := do
  let transaction ← ownedTransaction pid id
  match transaction.state with
  | .committed => return .ok
  | .aborted => throw (error .aborted "fork transaction was aborted")
  | .prepared | .adopted => throw (error .notReady "child has not acknowledged readiness")
  | .ready =>
    let m ← get
    let child := transaction.ticket.child.pid
    let _ ← unwrap m.processes[child]? "commitFork: ready child must exist"
    set (m.activateChild child id)
    return .ok

def StateManager.abortTransaction (m : StateManager) (id : Nat) : StateManager :=
  match m.transactions[id]? with
  | none => m
  | some transaction =>
    if transaction.state.terminal then m
    else
      { m with
        transactions := m.transactions.modify id fun t =>
          { t with state := .aborted, snapshot := none }
        -- Keep attached child references until its real native exit notification.
        processes := m.processes.modify transaction.ticket.child.pid fun p =>
          { p with state := .aborted } }

def abortFork (pid id : Nat) : Rpc Reply := do
  let transaction ← ownedTransaction pid id
  failIf (transaction.state = .committed) (error .conflict "committed fork cannot be aborted")
  modify fun m => (m.abortTransaction id).collectObjects
  return .ok

def StateManager.abortPendingFor (m : StateManager) (pid : Nat) : StateManager :=
  let pending := selectKeys m.transactions fun t =>
    (t.parent == pid || t.ticket.child.pid == pid) && !t.state.terminal
  pending.foldl StateManager.abortTransaction m

/-- `none` revokes an uncommitted native candidate; `true` releases a committed
candidate to normal process ownership; `false` retains the rollback guard. -/
def StateManager.nativeForkState (m : StateManager) (transaction : Nat)
    (peer : PeerIdentity) : Option Bool :=
  if anyValue m.processes (fun p => p.peer == peer && p.state == .active) then some true
  else
    match m.transactions[transaction]? with
    | none => none
    | some t =>
      match t.state with
      | .prepared | .adopted | .ready => some false
      | .committed => some true
      | .aborted => none

end Kinakaze.Manager
