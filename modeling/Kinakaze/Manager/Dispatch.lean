import Kinakaze.Library.Run
import Kinakaze.Manager.Exit
import Kinakaze.Manager.Pool

/-!
# Entry points

The five calls the server makes: `connect`, `handle`, `acknowledge`,
`disconnect` and `processExitedWithStatus`.  `handle` dispatches on the kind of
the connection first and on the request second.
-/

namespace Kinakaze.Manager

open Kinakaze.Library Kinakaze.Protocol

def StateManager.stats (m : StateManager) : Stats where
  processes := m.processes.size
  clients := m.clients.size
  objects := m.objects.size
  transactions := m.transactions.size + m.execTransactions.size

/-! ## Connecting -/

def StateManager.addClient (m : StateManager) (peer : PeerIdentity) (kind : ClientKind) :
    StateManager :=
  { m with
    nextClient := m.nextClient + 1
    clients := m.clients.insert m.nextClient ⟨peer, kind⟩ }

def StateManager.addRoot (m : StateManager) (identity : ProcessIdentity)
    (peer : PeerIdentity) : StateManager :=
  { m with
    processes := m.processes.insert identity.pid
      { identity := identity
        peer := peer
        snapshot := Snapshot.empty
        state := .active
        requestKeys := ∅
        execRequestKeys := ∅
        prewarm := .fresh } }

/-- A worker without a reservation becomes a root process. -/
def spawnRoot (peer : PeerIdentity) : Rpc ProcessIdentity := do
  let m ← get
  failIf (m.singleRoot = true ∧ m.nextPid ≠ 1) (error .unauthorized
      "process tree already has its init; a fork or exec reservation is required")
  checkProcessCapacity
  let identity ← allocateIdentity 0
  modify fun m => m.addRoot identity peer
  return identity

/-- The process and the kind of a new connection, by the role it asks for. -/
def connectRole (hello : Hello) (peer : PeerIdentity) (reservedExec : Option Nat)
    (knownWorker : Bool) : Rpc (Option ProcessIdentity × ClientKind) := do
  let m ← get
  match hello.role with
  | .helper =>
    failIf (hello.adoptionTicket.isSome ∨ knownWorker ∨ reservedExec.isSome
        ∨ anyValue m.clients (fun c => c.peer == peer))
      (error .unauthorized "helper requires a fresh native identity")
    return (none, .helper)
  | .controller | .launcher =>
    failIf (hello.adoptionTicket.isSome ∨ knownWorker ∨ reservedExec.isSome)
      (error .unauthorized "worker identities cannot open controller connections")
    return (none, if hello.role = .launcher then .launcher else .controller)
  | .worker =>
    failIf knownWorker (error .conflict "native worker already owns a Linux process")
    failIf (anyValue m.clients fun c => c.peer == peer)
      (error .conflict "controller cannot become a worker")
    match reservedExec with
    | some transaction =>
      failIf hello.adoptionTicket.isSome (error .conflict "exec candidate cannot adopt a fork")
      let identity ← adoptExec transaction m.nextClient
      return (some identity, .execCandidate identity.pid transaction)
    | none =>
      let identity ← match hello.adoptionTicket with
        | some token => adopt token peer
        | none => spawnRoot peer
      return (some identity, .worker identity.pid)

def connect (hello : Hello) (peer : PeerIdentity) : Rpc (ClientId × Reply) := do
  failIf (supportedVersion hello.version = false)
    (error .versionMismatch "unsupported protocol version")
  let m ← get
  failIf (m.token.isEmpty ∨ 512 < hello.token.utf8ByteSize
      ∨ secretEqual hello.token m.token = false)
    (error .unauthorized "invalid session credential")
  failIf (peer.hostPid = 0 ∨ peer.birth = 0)
    (error .invalidRequest "invalid native process identity")
  failIf m.shutdownRequested (error .aborted "manager is shutting down")
  failIf (m.limits.maxClients ≤ m.clients.size ∨ m.nextClient = u64Max)
    (limit "client limit reached")
  let reservedExec :=
    (findEntry m.execTransactions fun t => t.target == peer).map Prod.fst
  let knownWorker := anyValue m.processes (fun p => p.peer == peer)
    || anyValue m.clients (fun c => c.peer == peer && !c.kind.isControl)
    || decide (peer ∈ m.retiredPeers)
  let (process, kind) ← connectRole hello peer reservedExec knownWorker
  let m ← get
  set (m.addClient peer kind)
  return (m.nextClient, .hello m.epoch process)

/-! ## Requests -/

def isHello : Request → Bool
  | .hello _ => true
  | _ => false

/-- What a launcher may ask for. -/
def launcherMay : Request → Bool
  | .stats | .awaitExit _ | .reservePoolWorker | .releasePoolWorker _
  | .activatePoolWorker _ _ | .activatePoolWorkerUnderParent _ _ _ => true
  | _ => false

/-- What only controllers and launchers may ask for. -/
def controlOnly : Request → Bool
  | .awaitExit _ | .awaitPrewarmReady _ | .activatePrewarm _ | .awaitPoolReady _
  | .reservePoolWorker | .releasePoolWorker _ | .activatePoolWorker _ _
  | .activatePoolWorkerUnderParent _ _ _ => true
  | _ => false

/-- What a fork child may ask for before its parent commits. -/
def pendingMay : Request → Bool
  | .registerModule _ _ | .nativeCatalog | .markReady | .awaitActivation => true
  | .kernel command => command.pinsOnly
  | _ => false

/-- Requests of controllers and launchers. -/
def handleControl (client : ClientId) (request : Request) : Rpc Reply := do
  let m ← get
  match request with
  | .stats => return .stats m.stats
  | .awaitExit pid => awaitExit pid
  | .awaitPrewarmReady pid => prewarmReady pid
  | .activatePrewarm pid => activatePrewarm pid
  | .awaitPoolReady minimum => awaitPoolReady minimum
  | .reservePoolWorker => reservePoolWorker client
  | .releasePoolWorker pid => releasePoolWorker client pid
  | .activatePoolWorker pid launch => activatePoolWorker client pid 0 launch
  | .activatePoolWorkerUnderParent pid parentPid launch =>
    activatePoolWorker client pid parentPid launch
  | .shutdown =>
    set { m with shutdownRequested := true }
    return .ok
  | _ => throw (error .unauthorized "controller has no guest process")

def prepareForkWithParent (pid requestKey parentPid : Nat) (entropy : Entropy) : Rpc Reply := do
  failIf (pid = 1) (error .invalidRequest "PID 1 cannot use CLONE_PARENT")
  let m ← get
  let process ← unwrap m.processes[pid]? "prepareForkWithParent: process"
  failIf (process.identity.parentPid ≠ parentPid)
    (error .unauthorized "CLONE_PARENT must retain the caller's parent")
  prepareFork pid requestKey parentPid entropy

def awaitActivation (pid : Nat) : Rpc Reply := do
  let m ← get
  let process ← unwrap m.processes[pid]? "awaitActivation: process"
  failIf (process.state ≠ .active) (error .notReady "awaiting parent commit")
  return .ok

/-- Requests of the worker that owns process `pid`, once its state admits them. -/
def handleOwner (client : ClientId) (pid : Nat) (request : Request) (entropy : Entropy) :
    Rpc Reply := do
  let m ← get
  match request with
  | .nativeFork transaction spec => nativeFork pid transaction spec
  | .nativeExec | .imageSnapshot | .nativeCatalog | .kernel _ => return .ok
  | .markPrewarmReady => markPrewarmReady pid
  | .awaitPrewarmActivation => awaitPrewarmActivation pid
  | .markPoolReady => markPoolReady pid
  | .awaitPoolActivation => awaitPoolActivation pid
  | .processMemoryTarget target _ => processMemoryTarget pid target
  | .registerModule moduleId schema => registerModule pid moduleId schema
  | .defineState moduleId name initial fork => defineState pid moduleId name initial fork
  | .readState moduleId name => readState pid moduleId name
  | .writeState moduleId name value => writeState pid moduleId name value
  | .prepareFork requestKey => prepareFork pid requestKey pid entropy
  | .prepareForkWithParent requestKey parentPid =>
    prepareForkWithParent pid requestKey parentPid entropy
  | .markReady => markReady pid
  | .awaitActivation => awaitActivation pid
  | .commitFork transaction => commitFork pid transaction
  | .awaitForkReady transaction => awaitForkReady pid transaction
  | .abortFork transaction => abortFork pid transaction
  | .prepareExec requestKey hostPid birth =>
    prepareExec client pid requestKey ⟨hostPid, birth⟩
  | .awaitExecReady transaction => awaitExecReady client pid transaction
  | .commitExec transaction => commitExec client pid transaction
  | .abortExec transaction => abortExec client pid transaction
  | .stats => return .stats m.stats
  | .shutdown => throw (error .unauthorized "only controller can shut down manager")
  | .identity | .hello _ | .awaitExit _ | .awaitPrewarmReady _ | .activatePrewarm _
  | .awaitPoolReady _ | .reservePoolWorker | .releasePoolWorker _
  | .activatePoolWorker _ _ | .activatePoolWorkerUnderParent _ _ _ =>
    throw (.panicked "handleOwner: handled before dispatch")

/-- Requests of a worker: its process must exist, still be its own, and be past
the state in which only some requests are admitted. -/
def handleWorker (client : ClientId) (peer : PeerIdentity) (pid : Nat) (request : Request)
    (entropy : Entropy) : Rpc Reply := do
  let m ← get
  let process ← require m.processes[pid]? (error .unauthorized "worker process has exited")
  failIf (process.peer ≠ peer) (error .unauthorized "worker no longer owns this process")
  if request = .identity then return .identity process.identity
  else
    failIf (process.state = .aborted) (error .aborted "child fork transaction was aborted")
    failIf (process.state.isPending ∧ pendingMay request = false)
      (error .notReady "child must await parent commit")
    handleOwner client pid request entropy

/-- Requests of a worker an exec has replaced: it may only repeat its own. -/
def handleRetired (client : ClientId) (pid transaction : Nat) (request : Request) : Rpc Reply := do
  match request with
  | .commitExec id =>
    failIf (id ≠ transaction) (error .unauthorized "worker was replaced by exec")
    commitExec client pid id
  | .abortExec id =>
    failIf (id ≠ transaction) (error .unauthorized "worker was replaced by exec")
    abortExec client pid id
  | _ => throw (error .unauthorized "worker was replaced by exec")

def handle (client : ClientId) (request : Request) (entropy : Entropy) : Rpc Reply := do
  let m ← get
  let connected ← require m.clients[client]?
    (error .unauthorized "unknown or disconnected client")
  failIf (connected.kind = .helper)
    (error .unauthorized "helper has no management or guest process privileges")
  failIf (isHello request) (error .invalidRequest "Hello is only valid when opening a connection")
  failIf (connected.kind = .launcher ∧ launcherMay request = false)
    (error .unauthorized "launcher can only launch and observe processes")
  if connected.kind.isControl then handleControl client request
  else
    failIf (controlOnly request) (error .unauthorized "only controller can await process exit")
    match connected.kind with
    | .worker pid => handleWorker client connected.peer pid request entropy
    | .execCandidate pid transaction => handleExecCandidate client pid transaction request
    | .retired pid transaction => handleRetired client pid transaction request
    | .controller | .launcher | .helper =>
      throw (.panicked "handle: handled before dispatch")

def StateManager.forgetTransaction (m : StateManager) (pid id : Nat) : StateManager :=
  { m with
    transactions := m.transactions.erase id
    processes := m.processes.modify pid fun p =>
      { p with requestKeys := p.requestKeys.filter fun _ value => value != id } }

def StateManager.forgetExec (m : StateManager) (pid id : Nat) : StateManager :=
  { m with
    execTransactions := m.execTransactions.erase id
    processes := m.processes.modify pid fun p =>
      { p with execRequestKeys := p.execRequestKeys.filter fun _ value => value != id } }

/-- Release a terminal replay record only after its native owner confirms receipt. -/
def acknowledge (client : ClientId) (id : Nat) : Rpc PUnit := do
  let m ← get
  let connected ← require m.clients[client]? (error .unauthorized "unknown client")
  match connected.kind with
  | .worker pid =>
    let _ ← require (m.processes[pid]?.filter fun p => p.peer == connected.peer)
      (error .unauthorized "worker no longer owns process")
    match m.transactions[id]? with
    | some transaction =>
      failIf (transaction.parent ≠ pid) (error .unauthorized "foreign fork acknowledgement")
      failIf (transaction.state.terminal = false) (error .notReady "fork is not terminal")
      let _ ← unwrap m.processes[pid]? "acknowledge: process"
      set (m.forgetTransaction pid id)
    | none =>
      match m.execTransactions[id]? with
      | some transaction =>
        failIf (transaction.process ≠ pid ∨ transaction.owner ≠ client)
          (error .unauthorized "foreign exec acknowledgement")
        failIf (transaction.state ≠ .aborted) (error .notReady "exec still owns a native image")
        let _ ← unwrap m.processes[pid]? "acknowledge: process"
        set (m.forgetExec pid id)
      -- Repeating an acknowledgement is harmless; it never allocates work.
      | none => return ⟨⟩
  | _ => throw (error .unauthorized "only the active worker may acknowledge")

/-! ## Runs -/

/-- A call of the server on the manager, with the entropy the call would draw. -/
inductive Event
  | connect (hello : Hello) (peer : PeerIdentity)
  | handle (client : ClientId) (request : Request) (entropy : Entropy)
  | acknowledge (client : ClientId) (id : Nat)
  | disconnect (client : ClientId)
  | processExited (peer : PeerIdentity) (status : Int)

/-- What the caller gets back. -/
inductive Response
  | connected (client : ClientId) (reply : Reply)
  | replied (reply : Reply)
  | done
  deriving DecidableEq

def Event.call : Event → Rpc Response
  | .connect hello peer => do
    let (client, reply) ← Manager.connect hello peer
    return .connected client reply
  | .handle client request entropy => do
    let reply ← Manager.handle client request entropy
    return .replied reply
  | .acknowledge client id => do
    Manager.acknowledge client id
    return .done
  | .disconnect client => do
    modify fun m => m.disconnect client
    return .done
  | .processExited peer status => do
    processExitedWithStatus peer status
    return .done

/-- The state a call leaves behind, whatever it answers. -/
def step (m : StateManager) (event : Event) : StateManager := (exec event.call m).2

/-- What a call answers. -/
def outcome (m : StateManager) (event : Event) : Except Fault Response :=
  (exec event.call m).1

/-- The managers the constructors build. -/
inductive Initial : StateManager → Prop
  | withLimits (epoch : Nat) (token : String) (limits : Limits) :
      Initial (StateManager.withLimits epoch token limits)
  | forProcessTree (epoch : Nat) (token : String) :
      Initial (StateManager.forProcessTree epoch token)

/-- The states some sequence of calls leads to. -/
abbrev ReachableState (m : StateManager) : Prop := Reachable step Initial m

end Kinakaze.Manager
