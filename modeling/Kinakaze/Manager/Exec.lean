import Kinakaze.Manager.State

/-!
# Exec transactions

An exec keeps the Linux PID and replaces its native worker.  The owner reserves
a target identity, the target attaches as a candidate and reports readiness,
and the owner commits.  Commit retires the owner's connection; the candidate
becomes the worker only when the old native process is reported dead.
-/

namespace Kinakaze.Manager

open Kinakaze.Library Kinakaze.Protocol

/-- File an exec transaction of process `pid` under the request key. -/
def StateManager.addExec (m : StateManager) (pid requestKey : Nat)
    (transaction : ExecTransaction) : StateManager :=
  { m with
    nextTransaction := m.nextTransaction + 1
    execTransactions := m.execTransactions.insert m.nextTransaction transaction
    processes := m.processes.modify pid fun p =>
      { p with execRequestKeys := p.execRequestKeys.insert requestKey m.nextTransaction } }

def prepareExec (owner : ClientId) (pid requestKey : Nat) (target : PeerIdentity) : Rpc Reply := do
  let m ← get
  let process ← unwrap m.processes[pid]? "prepareExec: process"
  match process.execRequestKeys[requestKey]? with
  | some id =>
    let transaction ← unwrap m.execTransactions[id]? "prepareExec: transaction"
    failIf (transaction.target ≠ target ∨ transaction.owner ≠ owner)
      (error .conflict "exec request key reused with different replacement or owner")
    failIf (transaction.state = .aborted)
      (error .aborted "exec request was aborted; use a new request key")
    return .execPrepared id
  | none =>
    failIf (target.hostPid = 0 ∨ target.birth = 0)
      (error .invalidRequest "invalid replacement process identity")
    failIf (anyValue m.execTransactions fun t => t.process == pid && !t.state.terminal)
      (error .conflict "process already has a pending exec")
    failIf (anyValue m.processes (fun p => p.peer == target)
        ∨ anyValue m.clients (fun c => c.peer == target)
        ∨ target ∈ m.retiredPeers
        ∨ anyValue m.execTransactions (fun t => t.target == target))
      (error .conflict "replacement native worker is already in use")
    failIf (m.limits.maxRequestKeysPerProcess ≤
        process.requestKeys.size + process.execRequestKeys.size)
      (limit "exec request-key limit reached")
    let pending := countIf m.execTransactions fun t => !t.state.terminal
    failIf (m.limits.maxTransactions ≤ m.transactions.size + m.execTransactions.size
        ∨ m.limits.maxTransactions ≤ m.retiredPeers.card + pending
        ∨ m.nextTransaction = u64Max)
      (limit "exec transaction or native retirement limit reached")
    set (m.addExec pid requestKey
      { process := pid
        owner := owner
        ownerPeer := process.peer
        target := target
        candidate := none
        state := .prepared
        retiring := false
        candidateExit := none })
    return .execPrepared m.nextTransaction

def StateManager.attachExec (m : StateManager) (id : Nat) (client : ClientId) :
    StateManager :=
  { m with
    execTransactions := m.execTransactions.modify id fun t =>
      { t with candidate := some client, state := .adopted } }

def adoptExec (id : Nat) (client : ClientId) : Rpc ProcessIdentity := do
  let m ← get
  let transaction ← unwrap m.execTransactions[id]? "adoptExec: transaction"
  failIf (transaction.state = .aborted) (error .aborted "exec replacement was revoked")
  failIf (transaction.state ≠ .prepared) (error .conflict "exec replacement was already attached")
  let process ← require m.processes[transaction.process]?
    (error .aborted "exec owner has exited")
  set (m.attachExec id client)
  return process.identity

def StateManager.setExecReady (m : StateManager) (id : Nat) : StateManager :=
  { m with
    execTransactions := m.execTransactions.modify id fun t => { t with state := .ready } }

def handleExecCandidate (client : ClientId) (pid id : Nat) (request : Request) : Rpc Reply := do
  let m ← get
  let transaction ← require m.execTransactions[id]? (error .aborted "exec owner has exited")
  failIf (transaction.state = .aborted) (error .aborted "exec replacement was revoked")
  failIf (transaction.process ≠ pid ∨ transaction.candidate ≠ some client)
    (error .unauthorized "client does not own exec replacement")
  let process ← require m.processes[pid]? (error .aborted "exec owner has exited")
  match request with
  | .identity => return .identity process.identity
  | .imageSnapshot | .nativeCatalog | .kernel .retain | .kernel .lease => return .ok
  | .registerModule moduleId schema =>
    match process.snapshot.modules[moduleId]? with
    | some existing =>
      failIf (existing ≠ schema) (error .conflict "replacement module schema differs")
      return .ok
    | none =>
      throw (error .notReady "replacement may only validate inherited modules before commit")
  | .markReady =>
    if transaction.state ≠ .committed then
      set (m.setExecReady id)
      return .ok
    else return .ok
  | .awaitActivation => throw (error .notReady "awaiting exec owner commit")
  | .shutdown | .stats =>
    throw (error .unauthorized "exec replacement has no controller authority")
  | _ => throw (error .notReady "replacement must await exec commit")

def ownedExec (owner : ClientId) (pid id : Nat) : Rpc ExecTransaction := do
  let m ← get
  let transaction ← require m.execTransactions[id]?
    (error .notFound "unknown exec transaction")
  failIf (transaction.process ≠ pid ∨ transaction.owner ≠ owner)
    (error .unauthorized "only exec owner may control the replacement")
  return transaction

def awaitExecReady (owner : ClientId) (pid id : Nat) : Rpc Reply := do
  let transaction ← ownedExec owner pid id
  match transaction.state with
  | .ready | .committed => return .ok
  | .aborted => throw (error .aborted "exec replacement was revoked")
  | .prepared | .adopted =>
    throw (error .notReady "replacement has not acknowledged readiness")

/-- The irreversible switch: the owner's connection and native worker retire. -/
def StateManager.retireOwner (m : StateManager) (owner : ClientId) (pid id : Nat)
    (peer : PeerIdentity) : StateManager :=
  { m with
    retiredPeers := insert peer m.retiredPeers
    clients := m.clients.modify owner fun c => { c with kind := .retired pid id }
    execTransactions := m.execTransactions.modify id fun t =>
      { t with state := .committed, retiring := true } }

def commitExec (owner : ClientId) (pid id : Nat) : Rpc Reply := do
  let transaction ← ownedExec owner pid id
  match transaction.state with
  | .committed => return .ok
  | .aborted => throw (error .aborted "exec replacement was revoked")
  | .prepared | .adopted =>
    throw (error .notReady "replacement has not acknowledged readiness")
  | .ready =>
    let m ← get
    let process ← unwrap m.processes[pid]? "commitExec: ready exec owns process"
    let _ ← unwrap m.clients[owner]? "commitExec: exec owner must be connected"
    set (m.retireOwner owner pid id process.peer)
    return .ok

def StateManager.abortExecTransaction (m : StateManager) (id : Nat) : StateManager :=
  match m.execTransactions[id]? with
  | none => m
  | some transaction =>
    if transaction.state.terminal then m
    else
      { m with
        retiredPeers :=
          if transaction.candidate.isSome then insert transaction.target m.retiredPeers
          else m.retiredPeers
        execTransactions := m.execTransactions.modify id fun t =>
          { t with state := .aborted } }

def abortExec (owner : ClientId) (pid id : Nat) : Rpc Reply := do
  let transaction ← ownedExec owner pid id
  failIf (transaction.state = .committed) (error .conflict "committed exec cannot be aborted")
  modify fun m => m.abortExecTransaction id
  return .ok

def StateManager.abortPendingExecFor (m : StateManager) (pid : Nat) : StateManager :=
  let pending := selectKeys m.execTransactions fun t => t.process == pid
  pending.foldl StateManager.abortExecTransaction m

/-- Init's rollback custody is keyed by both pinned native identities.  A
committed replacement survives its original process's native death. -/
def StateManager.nativeExecState (m : StateManager) (parent child : PeerIdentity) :
    NativeExecState :=
  if anyValue m.processes (fun p => p.peer == child && p.state == .active) then .committed
  else
    match findEntry m.execTransactions fun t => t.ownerPeer == parent && t.target == child with
    | some (_, transaction) =>
      match transaction.state with
      | .committed => .committed
      | .aborted => .aborted
      | .prepared | .adopted | .ready => .pending
    | none =>
      if anyValue m.processes (fun p => p.peer == parent && p.state == .active) then
        .unreserved
      else .aborted

end Kinakaze.Manager
