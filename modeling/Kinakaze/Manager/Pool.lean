import Kinakaze.Manager.State

/-!
# The pool of prewarmed workers

A root worker that has run no guest code may park itself, either for one
prewarmed launch or in the generic pool.  A controller or launcher reserves a
pooled worker and then binds it to one launch, at the root or under a live
process.  The reservation belongs to the connection that made it.
-/

namespace Kinakaze.Manager

open Kinakaze.Library Kinakaze.Protocol

def StateManager.setPrewarm (m : StateManager) (pid : Nat) (prewarm : PrewarmState) :
    StateManager :=
  { m with processes := m.processes.modify pid fun p => { p with prewarm := prewarm } }

/-- A root worker of the first generation. -/
def Process.isRoot (p : Process) : Bool :=
  p.identity.parentPid == 0 && p.identity.generation == 1

def markPrewarmReady (pid : Nat) : Rpc Reply := do
  let m ← get
  let process ← unwrap m.processes[pid]? "markPrewarmReady: process"
  failIf (process.isRoot = false ∨ ¬(process.prewarm = .fresh ∨ process.prewarm = .ready))
    (error .conflict "only an unused root worker can prewarm")
  set (m.setPrewarm pid .ready)
  return .ok

def awaitPrewarmActivation (pid : Nat) : Rpc Reply := do
  let m ← get
  let process ← unwrap m.processes[pid]? "awaitPrewarmActivation: process"
  match process.prewarm with
  | .activated => return .ok
  | .ready => throw (error .notReady "awaiting prewarm activation")
  | _ => throw (error .conflict "worker has not prewarmed")

def markPoolReady (pid : Nat) : Rpc Reply := do
  let m ← get
  let process ← unwrap m.processes[pid]? "markPoolReady: process"
  failIf (process.isRoot = false ∨ ¬(process.prewarm = .fresh ∨ process.prewarm = .poolReady))
    (error .conflict "only an unused root worker can join the pool")
  set (m.setPrewarm pid .poolReady)
  return .ok

def awaitPoolActivation (pid : Nat) : Rpc Reply := do
  let m ← get
  let process ← unwrap m.processes[pid]? "awaitPoolActivation: process"
  match process.prewarm with
  | .poolActivated launch _ _ => return .poolLaunch launch
  | .poolReady | .poolReserved _ => throw (error .notReady "awaiting pool assignment")
  | _ => throw (error .conflict "worker is not in the pool")

def prewarmReady (pid : Nat) : Rpc Reply := do
  let m ← get
  failIf (pid = m.nextPid) (error .notReady "prewarmed worker is connecting")
  let process ← require m.processes[pid]?
    (error .notFound "prewarmed worker has exited or does not exist")
  match process.prewarm with
  | .fresh => throw (error .notReady "worker is still preparing")
  | .ready | .activated => return .ok
  | _ => throw (error .conflict "worker belongs to the generic pool")

def activatePrewarm (pid : Nat) : Rpc Reply := do
  let m ← get
  let process ← require m.processes[pid]? (error .notFound "unknown prewarmed worker")
  failIf (¬(process.prewarm = .ready ∨ process.prewarm = .activated))
    (error .notReady "worker is not prewarmed")
  set (m.setPrewarm pid .activated)
  return .ok

def StateManager.poolReadyCount (m : StateManager) : Nat :=
  countIf m.processes fun p => p.prewarm == .poolReady

def awaitPoolReady (minimum : Nat) : Rpc Reply := do
  failIf (minimum = 0) (error .invalidRequest "pool readiness count must be positive")
  let m ← get
  failIf (m.poolReadyCount < minimum) (error .notReady "pool is preparing")
  return .ok

def StateManager.processPeer (m : StateManager) (pid : Nat) : Option PeerIdentity :=
  m.processes[pid]?.map Process.peer

def StateManager.poolPeerIsPrepared (m : StateManager) (peer : PeerIdentity) : Bool :=
  anyValue m.processes fun p =>
    p.peer == peer && match p.prewarm with
      | .poolReady | .poolReserved _ => true
      | _ => false

def reservePoolWorker (client : ClientId) : Rpc Reply := do
  let m ← get
  let (pid, process) ← require (findEntry m.processes fun p => p.prewarm == .poolReady)
    (error .notReady "no prepared pool worker")
  set (m.setPrewarm pid (.poolReserved client))
  return .poolWorker process.identity.pid process.peer.hostPid process.peer.birth

def releasePoolWorker (client : ClientId) (pid : Nat) : Rpc Reply := do
  let m ← get
  let process ← require m.processes[pid]? (error .notFound "unknown pool worker")
  failIf (process.prewarm ≠ .poolReserved client)
    (error .conflict "connection does not hold this pool reservation")
  set (m.setPrewarm pid .poolReady)
  return .ok

/-- A parked worker: it has run no guest code yet. -/
def PrewarmState.standby : PrewarmState → Bool
  | .ready | .poolReady | .poolReserved _ => true
  | _ => false

/-- Bind a pooled worker to its launch and its place in the process tree. -/
def StateManager.bindLaunch (m : StateManager) (pid parentPid : Nat) (client : ClientId)
    (launch : PoolLaunch) : StateManager :=
  { m with
    processes := m.processes.modify pid fun p =>
      { p with
        identity.parentPid := parentPid
        prewarm := .poolActivated launch client parentPid } }

def activatePoolWorker (client : ClientId) (pid parentPid : Nat) (launch : PoolLaunch) :
    Rpc Reply := do
  failIf (launch.valid = false) (error .invalidRequest
      "pool launch requires absolute Linux argv[0]/cwd and NUL-free strings")
  failIf (parentPid = pid) (error .invalidRequest "process cannot be its own parent")
  let m ← get
  let process ← require m.processes[pid]? (error .notFound "unknown pool worker")
  match process.prewarm with
  | .poolActivated previous owner previousParent =>
    failIf (¬(previous = launch ∧ owner = client ∧ previousParent = parentPid))
      (error .conflict "pool worker already has a different launch")
    return .ok
  | prewarm =>
    failIf (prewarm ≠ .poolReserved client)
      (error .conflict "connection does not hold this pool reservation")
    if parentPid ≠ 0 then
      let parent ← require m.processes[parentPid]?
        (error .notFound "parent process does not exist")
      failIf (parent.state ≠ .active ∨ parent.prewarm.standby ∨ parent.peer ∈ m.retiredPeers)
        (error .conflict "parent is not an active application")
    set (m.bindLaunch pid parentPid client launch)
    return .ok

/-- Follow parent links from `ancestor`, at most `steps` of them, in search of
`caller`. -/
def StateManager.isAncestor (m : StateManager) (caller : Nat) : Nat → Nat → Bool
  | 0, _ => false
  | steps + 1, ancestor =>
    if ancestor = caller then true
    else
      let next := match m.processes[ancestor]? with
        | some entry => entry.identity.parentPid
        | none => 0
      if next = 0 then false else m.isAncestor caller steps next

def processMemoryTarget (caller target : Nat) : Rpc Reply := do
  failIf (target = 0 ∨ i32Max < target) (error .notFound "unknown Linux process")
  let m ← get
  let process ← require m.processes[target]? (error .notFound "unknown Linux process")
  failIf (process.state ≠ .active ∨ process.peer ∈ m.retiredPeers)
    (error .notFound "Linux process has no active native owner")
  -- The loop bound is inclusive: one step more than there are processes.
  failIf (m.isAncestor caller (m.processes.size + 1) target = false)
    (error .unauthorized "memory access requires a descendant process")
  return .processMemoryTarget process.peer.hostPid process.peer.birth

end Kinakaze.Manager
