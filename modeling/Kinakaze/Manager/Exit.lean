import Kinakaze.Manager.Exec
import Kinakaze.Manager.Fork

/-!
# End of connections and of native processes

End of file on a connection revokes the connection and its pending
transactions, but it proves nothing about the native process.  Only the
transport's report that a pinned native process has died removes the process,
and only then does an exec replacement take over.
-/

namespace Kinakaze.Manager

open Kinakaze.Library Kinakaze.Protocol

/-- Return the pool workers a connection still holds. -/
def StateManager.releaseReservations (m : StateManager) (client : ClientId) : StateManager :=
  { m with
    processes := m.processes.map fun _ p =>
      if p.prewarm = .poolReserved client then { p with prewarm := .poolReady } else p }

/-- EOF revokes the connection and pending transactions, but is not proof of death. -/
def StateManager.disconnect (m : StateManager) (client : ClientId) : StateManager :=
  let m := m.releaseReservations client
  match m.clients[client]? with
  | none => m
  | some connected =>
    let m := { m with clients := m.clients.erase client }
    let m := match connected.kind with
      | .worker pid =>
        if m.processes[pid]?.any (fun p : Process => p.peer == connected.peer) then
          (m.abortPendingFor pid).abortPendingExecFor pid
        else m
      | .execCandidate _ transaction => m.abortExecTransaction transaction
      | .controller | .launcher | .helper | .retired _ _ => m
    m.collectObjects

/-- What the pass over the exec transactions has done so far. -/
structure ExecSweep where
  manager : StateManager
  deferredExits : List (PeerIdentity × Int)
  replacedImages : List Nat

/-- One exec transaction of the pass: remember the exit of a committed
candidate, and activate the replacement of a retired owner. -/
def ExecSweep.visit (peer : PeerIdentity) (status : Int) (sweep : ExecSweep)
    (entry : Nat × ExecTransaction) : ExecSweep :=
  let id := entry.1
  let t := entry.2
  let t := if t.retiring && t.target == peer then
      { t with candidateExit := some (t.candidateExit.getD status) }
    else t
  let m := sweep.manager
  if t.retiring && t.ownerPeer == peer then
    { manager := { m with
        execTransactions := m.execTransactions.insert id { t with retiring := false }
        processes := m.processes.modify t.process fun p => { p with peer := t.target }
        clients := match t.candidate with
          | some candidate =>
            m.clients.modify candidate fun c => { c with kind := .worker t.process }
          | none => m.clients }
      deferredExits := sweep.deferredExits ++ match t.candidateExit with
        | some exit => [(t.target, exit)]
        | none => []
      replacedImages := sweep.replacedImages ++ [t.process] }
  else { sweep with
    manager := { m with execTransactions := m.execTransactions.insert id t } }

/-- The dead image cannot retry terminal work.  Pending forks still belong to
the logical PID and may be completed by its replacement. -/
def StateManager.dropReplacedImage (m : StateManager) (pid : Nat) : StateManager :=
  let transactions := m.transactions.filter fun _ t => t.parent != pid || !t.state.terminal
  { m with
    transactions := transactions
    execTransactions := m.execTransactions.filter fun _ t => t.process != pid
    processes := m.processes.modify pid fun p =>
      { p with
        requestKeys := p.requestKeys.filter fun _ id => transactions.contains id
        execRequestKeys := ∅ } }

/-- Drop the oldest exit records until there is room for one more. -/
def expireExitRecords (maxRecords : Nat) : List Nat → Table Int → Option (List Nat × Table Int)
  | order, records =>
    if records.size < maxRecords then some (order, records)
    else
      match order with
      | [] => none
      | expired :: rest => expireExitRecords maxRecords rest (records.erase expired)

def recordExit (pid : Nat) (status : Int) : Rpc PUnit := do
  let m ← get
  if m.limits.maxExitRecords = 0 then return ⟨⟩
  else
    let (order, records) ←
      unwrap (expireExitRecords m.limits.maxExitRecords m.exitOrder m.exitRecords)
        "recordExit: exit record has retention order"
    set { m with
      exitRecords := records.insert pid status
      exitOrder := order ++ [pid] }

/-- A logical parent has exited: its children, attached or still reserved, go
to no parent. -/
def reparent (identity : ProcessIdentity) (pid : Nat) : ProcessIdentity :=
  if identity.parentPid = pid then { identity with parentPid := 0 } else identity

/-- The bookkeeping after a process has left the table: its children and the
children reserved under it have no parent any more, and its own transactions
need no replay record. -/
def StateManager.forgetProcess (m : StateManager) (pid : Nat) : StateManager :=
  { m with
    processes := m.processes.map fun _ p =>
      { p with identity := reparent p.identity pid }
    transactions := (m.transactions.map fun _ t =>
      { t with ticket.child := reparent t.ticket.child pid }).filter
        fun _ t => t.parent != pid
    execTransactions := m.execTransactions.filter fun _ t => t.process != pid }

/-- Remove the process of a dead native owner. -/
def removeProcess (status : Int) (pid : Nat) : Rpc PUnit := do
  modify fun m =>
    let m := (m.abortPendingFor pid).abortPendingExecFor pid
    { m with processes := m.processes.erase pid }
  recordExit pid status
  modify fun m => m.forgetProcess pid

/-- `process_exited_with_status` with a bound on nested notifications.  Each
level consumes an exec transaction, so the bound is never reached. -/
def processExitedWithin : Nat → PeerIdentity → Int → Rpc PUnit
  | 0, _, _ => throw .exhausted
  | fuel + 1, peer, status => do
    let m ← get
    let sweep := m.execTransactions.toList.foldl (ExecSweep.visit peer status) ⟨m, [], []⟩
    let m := sweep.replacedImages.foldl StateManager.dropReplacedImage sweep.manager
    let m := (selectKeys m.execTransactions fun t => t.target == peer).foldl
      StateManager.abortExecTransaction m
    let m := (selectKeys m.clients fun c => c.peer == peer).foldl StateManager.disconnect m
    set m
    (selectKeys m.processes fun p => p.peer == peer).forM (removeProcess status)
    modify fun m =>
      { m with retiredPeers := m.retiredPeers.erase peer }.collectObjects
    -- A candidate which died past the irreversible commit completes the
    -- logical PID only after every thread of the original worker is dead.
    sweep.deferredExits.forM fun exit => processExitedWithin fuel exit.1 exit.2

/-- Record exit only for the matching native owner of a current process. -/
def processExitedWithStatus (peer : PeerIdentity) (status : Int) : Rpc PUnit := do
  let m ← get
  processExitedWithin (m.execTransactions.size + 1) peer status

/-- Compatibility entry point for callers without a native exit code. -/
def processExited (peer : PeerIdentity) : Rpc PUnit :=
  processExitedWithStatus peer 127

def awaitExit (pid : Nat) : Rpc Reply := do
  failIf (pid = 0 ∨ i32Max < pid) (error .invalidRequest "invalid Linux process ID")
  let m ← get
  match m.exitRecords[pid]? with
  | some status => return .exit status
  | none =>
    failIf (m.processes.contains pid) (error .notReady "process native owner has not exited")
    throw (error .notFound "unknown process or expired exit record")

end Kinakaze.Manager
