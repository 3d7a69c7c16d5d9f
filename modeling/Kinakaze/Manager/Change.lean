import Kinakaze.Manager.Dispatch

/-!
# What a call can do

Every call is a sequence of a few kinds of effect on the manager.  `Change`
lists them, each with what the code has checked by the time it takes effect;
an invariant is proved once against this list and then holds across every
call.

## Main definitions
-/

namespace Kinakaze.Manager

open Kinakaze.Library Kinakaze.Protocol

/-! ## Columns of the process table -/

/-- The native worker that owns a process. -/
def StateManager.peerOf (m : StateManager) : Nat → Option PeerIdentity :=
  column m.processes Process.peer

def StateManager.stateOf (m : StateManager) : Nat → Option ProcessState :=
  column m.processes Process.state

/-! ## Who uses a native identity -/

/-- No process, native worker connection or retired image has the identity. -/
structure StateManager.Unknown (m : StateManager) (peer : PeerIdentity) : Prop where
  unowned : ∀ pid : Nat, m.peerOf pid ≠ some peer
  control : ∀ (i : ClientId) (c : Client), m.clients[i]? = some c → c.peer = peer →
    c.kind.isControl = true
  notRetired : peer ∉ m.retiredPeers

/-- No exec transaction has reserved the identity. -/
def StateManager.NoTarget (m : StateManager) (peer : PeerIdentity) : Prop :=
  ∀ (id : Nat) (t : ExecTransaction), m.execTransactions[id]? = some t → t.target ≠ peer

/-- No connection has the identity. -/
def StateManager.NoClient (m : StateManager) (peer : PeerIdentity) : Prop :=
  ∀ (i : ClientId) (c : Client), m.clients[i]? = some c → c.peer ≠ peer

/-- Connection `client` is the worker of process `pid`. -/
structure StateManager.Owns (m : StateManager) (client : ClientId) (pid : Nat)
    (p : Process) : Prop where
  connected : m.clients[client]? = some ⟨p.peer, .worker pid⟩
  process : m.processes[pid]? = some p

/-- The call asks the manager for something; the other calls report an end. -/
class Event.Asks (e : Event) : Prop where
  asks : match e with
    | .connect _ _ | .handle _ _ _ | .acknowledge _ _ => True
    | .disconnect _ | .processExited _ _ => False

instance (hello : Hello) (peer : PeerIdentity) : (Event.connect hello peer).Asks := ⟨trivial⟩

instance (client : ClientId) (request : Request) (entropy : Entropy) :
    (Event.handle client request entropy).Asks := ⟨trivial⟩

instance (client : ClientId) (id : Nat) : (Event.acknowledge client id).Asks := ⟨trivial⟩

theorem not_asks_disconnect (client : ClientId) : ¬ (Event.disconnect client).Asks :=
  fun h => h.asks

theorem not_asks_processExited (peer : PeerIdentity) (status : Int) :
    ¬ (Event.processExited peer status).Asks :=
  fun h => h.asks

/-- The call takes connection `client` down. -/
def Event.Ends (e : Event) (m : StateManager) (client : ClientId) : Prop :=
  e = .disconnect client ∨ ∃ (c : Client) (status : Int), m.clients[client]? = some c ∧
      e = .processExited c.peer status

/-- The calls that end by collecting the objects nobody refers to any more. -/
def Event.Collects : Event → Prop
  | .handle _ (.abortFork _) _ | .disconnect _ | .processExited _ _ => True
  | _ => False

/-! ## Effects with more than one part -/

/-- A new root process and its connection. -/
def StateManager.spawn (m : StateManager) (peer : PeerIdentity) : StateManager :=
  ({ m with nextPid := m.nextPid + 1 }.addRoot ⟨m.epoch, m.nextPid, 1, 0⟩ peer).addClient peer
    (.worker m.nextPid)

/-- A fork reservation of process `pid`, with the objects made for it. -/
def StateManager.reserveFork (m : StateManager) (pid requestKey parentPid : Nat)
    (token : String) (objects : Table Object) (next : Nat) (snapshot : Snapshot) :
    StateManager :=
  { m with nextPid := m.nextPid + 1, objects := objects, nextObject := next }.addTransaction
    pid requestKey
    { parent := pid
      requestedParent := parentPid
      ticket := ⟨m.nextTransaction, token, ⟨m.epoch, m.nextPid, 1, parentPid⟩⟩
      snapshot := some snapshot
      state := .prepared }

def StateManager.eraseClient (m : StateManager) (client : ClientId) : StateManager :=
  { m with clients := m.clients.erase client }

/-- The exit of a committed candidate is kept until the old image is dead; the
first report counts. -/
def StateManager.noteExit (m : StateManager) (id : Nat) (status : Int) : StateManager :=
  { m with
    execTransactions := m.execTransactions.modify id fun t =>
      { t with candidateExit := some (t.candidateExit.getD status) } }

/-- The old image of a committed exec is dead: its replacement takes over. -/
def StateManager.promote (m : StateManager) (t : ExecTransaction) : StateManager :=
  let transactions := m.transactions.filter fun _ u => u.parent != t.process || !u.state.terminal
  { m with
    transactions := transactions
    execTransactions := m.execTransactions.filter fun _ u => u.process != t.process
    processes := m.processes.modify t.process fun p =>
      { p with
        peer := t.target
        requestKeys := p.requestKeys.filter fun _ id => transactions.contains id
        execRequestKeys := ∅ }
    clients := match t.candidate with
      | some candidate =>
        m.clients.modify candidate fun c => { c with kind := .worker t.process }
      | none => m.clients }

/-- The exit table after process `pid` has ended with `status`. -/
def Recorded (maxRecords pid : Nat) (status : Int) (order : List Nat) (records : Table Int)
    (order' : List Nat) (records' : Table Int) : Prop :=
  (maxRecords = 0 ∧ order' = order ∧ records' = records) ∨
    (0 < maxRecords ∧ ∃ (kept : List Nat) (rest : Table Int),
      expireExitRecords maxRecords order records = some (kept, rest) ∧
        order' = kept ++ [pid] ∧ records' = rest.insert pid status)

/-- Process `pid` leaves the table and its exit is recorded. -/
def StateManager.endProcess (m : StateManager) (pid : Nat) (order : List Nat)
    (records : Table Int) : StateManager :=
  { m with
    processes := m.processes.erase pid
    exitRecords := records
    exitOrder := order }.forgetProcess pid

/-- What the copy loop makes of a state table: shared states keep their object,
every other state gets a new one. -/
structure Copied (objects : Table Object) (next : Nat) (states : StateTable)
    (objects' : Table Object) (next' : Nat) (states' : StateTable) : Prop where
  le : next ≤ next'
  old : ∀ {id : Nat}, id < next → objects'[id]? = objects[id]?
  new : ∀ {id : Nat}, next ≤ id → id < next' → ∃ key : StateKey, states'[key]? = some id
  bound : ∀ {id : Nat} {o : Object}, objects'[id]? = some o → id < next'
  shared : ∀ {key : StateKey} {id : Nat} {o : Object}, states[key]? = some id →
    objects[id]? = some o → o.fork = .share → states'[key]? = some id
  forked : ∀ {key : StateKey} {id : Nat} {o o' : Object}, states[key]? = some id →
    objects[id]? = some o → o.forked = some o' →
    ∃ id' : Nat, next ≤ id' ∧ states'[key]? = some id' ∧ objects'[id']? = some o'
  defined : ∀ {key : StateKey} {id : Nat}, states'[key]? = some id →
    ∃ (id₀ : Nat) (o : Object), states[key]? = some id₀ ∧ objects[id₀]? = some o ∧
      (o.fork = .share → id = id₀)
  distinct : ∀ {key key' : StateKey} {id : Nat}, states'[key]? = some id →
    states'[key']? = some id → next ≤ id → key = key'

/-! ## Aborting -/

section Aborting

variable {m : StateManager} {id : Nat}

theorem abortTransaction_of_pending {t : Transaction} (ht : m.transactions[id]? = some t)
    (hpending : t.state.terminal = false) :
    m.abortTransaction id = { m with
      transactions := m.transactions.modify id fun t =>
        { t with state := .aborted, snapshot := none }
      processes := m.processes.modify t.ticket.child.pid fun p =>
        { p with state := .aborted } } := by
  simp [StateManager.abortTransaction, ht, hpending]

theorem abortTransaction_of_not_pending
    (h : ∀ t : Transaction, m.transactions[id]? = some t → t.state.terminal = true) :
    m.abortTransaction id = m := by
  unfold StateManager.abortTransaction
  split
  · rfl
  · next t ht => rw [if_pos (h t ht)]

theorem abortExecTransaction_of_pending {t : ExecTransaction}
    (ht : m.execTransactions[id]? = some t) (hpending : t.state.terminal = false) :
    m.abortExecTransaction id = { m with
      retiredPeers :=
        if t.candidate.isSome then insert t.target m.retiredPeers else m.retiredPeers
      execTransactions := m.execTransactions.modify id fun t =>
        { t with state := .aborted } } := by
  simp [StateManager.abortExecTransaction, ht, hpending]

theorem abortExecTransaction_of_not_pending
    (h : ∀ t : ExecTransaction, m.execTransactions[id]? = some t → t.state.terminal = true) :
    m.abortExecTransaction id = m := by
  unfold StateManager.abortExecTransaction
  split
  · rfl
  · next t ht => rw [if_pos (h t ht)]

end Aborting

/-! ## Owners and states across effects

Most effects on a process leave its owner and its state alone. -/

section Columns

variable (m : StateManager)

@[simp] theorem peerOf_setPrewarm (pid : Nat) (prewarm : PrewarmState) :
    (m.setPrewarm pid prewarm).peerOf = m.peerOf :=
  column_modify_eq _ _ fun _ => rfl

@[simp] theorem stateOf_setPrewarm (pid : Nat) (prewarm : PrewarmState) :
    (m.setPrewarm pid prewarm).stateOf = m.stateOf :=
  column_modify_eq _ _ fun _ => rfl

@[simp] theorem peerOf_bindLaunch (pid parentPid : Nat) (client : ClientId)
    (launch : PoolLaunch) : (m.bindLaunch pid parentPid client launch).peerOf = m.peerOf :=
  column_modify_eq _ _ fun _ => rfl

@[simp] theorem stateOf_bindLaunch (pid parentPid : Nat) (client : ClientId)
    (launch : PoolLaunch) : (m.bindLaunch pid parentPid client launch).stateOf = m.stateOf :=
  column_modify_eq _ _ fun _ => rfl

@[simp] theorem peerOf_addModule (pid moduleId schema : Nat) :
    (m.addModule pid moduleId schema).peerOf = m.peerOf :=
  column_modify_eq _ _ fun _ => rfl

@[simp] theorem stateOf_addModule (pid moduleId schema : Nat) :
    (m.addModule pid moduleId schema).stateOf = m.stateOf :=
  column_modify_eq _ _ fun _ => rfl

@[simp] theorem peerOf_addState (pid : Nat) (key : StateKey) (object : Object) :
    (m.addState pid key object).peerOf = m.peerOf :=
  column_modify_eq _ _ fun _ => rfl

@[simp] theorem stateOf_addState (pid : Nat) (key : StateKey) (object : Object) :
    (m.addState pid key object).stateOf = m.stateOf :=
  column_modify_eq _ _ fun _ => rfl

@[simp] theorem peerOf_reserveFork (pid requestKey parentPid : Nat) (token : String)
    (objects : Table Object) (next : Nat) (snapshot : Snapshot) :
    (m.reserveFork pid requestKey parentPid token objects next snapshot).peerOf = m.peerOf :=
  column_modify_eq _ _ fun _ => rfl

@[simp] theorem stateOf_reserveFork (pid requestKey parentPid : Nat) (token : String)
    (objects : Table Object) (next : Nat) (snapshot : Snapshot) :
    (m.reserveFork pid requestKey parentPid token objects next snapshot).stateOf = m.stateOf :=
  column_modify_eq _ _ fun _ => rfl

@[simp] theorem peerOf_activateChild (child id : Nat) :
    (m.activateChild child id).peerOf = m.peerOf :=
  column_modify_eq _ _ fun _ => rfl

theorem stateOf_activateChild (child id q : Nat) : (m.activateChild child id).stateOf q =
      if child = q then (m.stateOf q).map fun _ => .active else m.stateOf q := by
  rw [StateManager.stateOf, StateManager.activateChild, column_modify]
  simp [column, StateManager.stateOf, Function.comp_def]

@[simp] theorem peerOf_addExec (pid requestKey : Nat) (t : ExecTransaction) :
    (m.addExec pid requestKey t).peerOf = m.peerOf :=
  column_modify_eq _ _ fun _ => rfl

@[simp] theorem stateOf_addExec (pid requestKey : Nat) (t : ExecTransaction) :
    (m.addExec pid requestKey t).stateOf = m.stateOf :=
  column_modify_eq _ _ fun _ => rfl

@[simp] theorem peerOf_forgetTransaction (pid id : Nat) :
    (m.forgetTransaction pid id).peerOf = m.peerOf :=
  column_modify_eq _ _ fun _ => rfl

@[simp] theorem stateOf_forgetTransaction (pid id : Nat) :
    (m.forgetTransaction pid id).stateOf = m.stateOf :=
  column_modify_eq _ _ fun _ => rfl

@[simp] theorem peerOf_forgetExec (pid id : Nat) : (m.forgetExec pid id).peerOf = m.peerOf :=
  column_modify_eq _ _ fun _ => rfl

@[simp] theorem stateOf_forgetExec (pid id : Nat) : (m.forgetExec pid id).stateOf = m.stateOf :=
  column_modify_eq _ _ fun _ => rfl

@[simp] theorem peerOf_releaseReservations (client : ClientId) :
    (m.releaseReservations client).peerOf = m.peerOf :=
  column_map_eq _ fun _ _ => by split <;> rfl

@[simp] theorem stateOf_releaseReservations (client : ClientId) :
    (m.releaseReservations client).stateOf = m.stateOf :=
  column_map_eq _ fun _ _ => by split <;> rfl

@[simp] theorem peerOf_abortTransaction (id : Nat) : (m.abortTransaction id).peerOf = m.peerOf := by
  unfold StateManager.abortTransaction
  split
  · rfl
  · split
    · rfl
    · exact column_modify_eq _ _ fun _ => rfl

theorem stateOf_abortTransaction {id : Nat} {t : Transaction}
    (ht : m.transactions[id]? = some t) (hpending : t.state.terminal = false) (q : Nat) :
    (m.abortTransaction id).stateOf q =
      if t.ticket.child.pid = q then (m.stateOf q).map fun _ => .aborted
      else m.stateOf q := by
  rw [abortTransaction_of_pending ht hpending, StateManager.stateOf, column_modify]
  simp [column, StateManager.stateOf, Function.comp_def]

theorem peerOf_promote (t : ExecTransaction) (q : Nat) : (m.promote t).peerOf q =
      if t.process = q then (m.peerOf q).map fun _ => t.target else m.peerOf q := by
  rw [StateManager.peerOf, StateManager.promote, column_modify]
  simp [column, StateManager.peerOf, Function.comp_def]

@[simp] theorem stateOf_promote (t : ExecTransaction) : (m.promote t).stateOf = m.stateOf :=
  column_modify_eq _ _ fun _ => rfl

theorem peerOf_endProcess (pid q : Nat) (order : List Nat) (records : Table Int) :
    (m.endProcess pid order records).peerOf q = if pid = q then none else m.peerOf q := by
  calc (m.endProcess pid order records).peerOf q
      = column (m.processes.erase pid) Process.peer q :=
        congrFun (column_map_eq _ (by intro _ _; rfl)) q
    _ = _ := column_erase _ _ _ _

theorem stateOf_endProcess (pid q : Nat) (order : List Nat) (records : Table Int) :
    (m.endProcess pid order records).stateOf q = if pid = q then none else m.stateOf q := by
  calc (m.endProcess pid order records).stateOf q
      = column (m.processes.erase pid) Process.state q :=
        congrFun (column_map_eq _ (by intro _ _; rfl)) q
    _ = _ := column_erase _ _ _ _

@[simp] theorem pid_reparent (identity : ProcessIdentity) (pid : Nat) :
    (reparent identity pid).pid = identity.pid := by
  unfold reparent
  split <;> rfl

variable {records : Table Int}

/-- The fork transactions that outlive process `pid`: those of other parents,
with its children given to no parent. -/
theorem transactions_endProcess {pid : Nat} {order : List Nat} {j : Nat} {u : Transaction} :
    (m.endProcess pid order records).transactions[j]? = some u ↔
      ∃ t : Transaction, m.transactions[j]? = some t ∧ t.parent ≠ pid ∧
        u = { t with ticket.child := reparent t.ticket.child pid } := by
  rw [show (m.endProcess pid order records).transactions = (m.transactions.map fun _ t =>
    { t with ticket.child := reparent t.ticket.child pid }).filter
      fun _ t => t.parent != pid from rfl, get_filter_eq_some, get_map,
    Option.map_eq_some_iff]
  constructor
  · rintro ⟨⟨t, ht, rfl⟩, hparent⟩
    exact ⟨t, ht, by simpa using hparent, rfl⟩
  · rintro ⟨t, ht, hparent, rfl⟩
    exact ⟨⟨t, ht, rfl⟩, by simpa using hparent⟩

theorem processes_endProcess {pid : Nat} {order : List Nat} {q : Nat} {p : Process} :
    (m.endProcess pid order records).processes[q]? = some p ↔
      q ≠ pid ∧ ∃ p₀ : Process, m.processes[q]? = some p₀ ∧
        p = { p₀ with identity := reparent p₀.identity pid } := by
  rw [show (m.endProcess pid order records).processes = (m.processes.erase pid).map fun _ p =>
    { p with identity := reparent p.identity pid } from rfl, get_map,
    get_erase, Option.map_eq_some_iff]
  constructor
  · rintro ⟨p₀, hp, rfl⟩
    split at hp
    · cases hp
    · next hne => exact ⟨fun h => hne h.symm, p₀, hp, rfl⟩
  · rintro ⟨hne, p₀, hp, rfl⟩
    exact ⟨p₀, by rw [if_neg fun h => hne h.symm]; exact hp, rfl⟩

end Columns

/-! ## One effect of a call -/

/-- The ways a worker moves through the pool before its launch is bound. -/
inductive Park (m : StateManager) (pid : Nat) (p : Process) : PrewarmState → Prop
  | markPrewarmReady {client : ClientId} (howner : m.Owns client pid p)
      (hroot : p.isRoot = true) (hfrom : p.prewarm = .fresh ∨ p.prewarm = .ready) :
      Park m pid p .ready
  | activatePrewarm (hfrom : p.prewarm = .ready ∨ p.prewarm = .activated) :
      Park m pid p .activated
  | markPoolReady {client : ClientId} (howner : m.Owns client pid p)
      (hactive : p.state = .active) (hroot : p.isRoot = true)
      (hfrom : p.prewarm = .fresh ∨ p.prewarm = .poolReady) : Park m pid p .poolReady
  | reserve {client : ClientId} {c : Client} (hclient : m.clients[client]? = some c)
      (hcontrol : c.kind.isControl = true) (hfrom : p.prewarm = .poolReady) :
      Park m pid p (.poolReserved client)
  | release {client : ClientId} (hfrom : p.prewarm = .poolReserved client) :
      Park m pid p .poolReady

/-- The effects of the call `e` in state `m`. -/
inductive Change (e : Event) (m : StateManager) : StateManager → Prop
  | shutdown [hasks : e.Asks] : Change e m { m with shutdownRequested := true }
  | connectControl [hasks : e.Asks] {peer : PeerIdentity} {kind : ClientKind}
      (hkind : kind = .helper ∨ kind.isControl = true) (hunknown : m.Unknown peer)
      (htarget : m.NoTarget peer) (hhelper : kind = .helper → m.NoClient peer)
      (hroom : m.clients.size < m.limits.maxClients) :
      Change e m (m.addClient peer kind)
  | connectRoot [hasks : e.Asks] {peer : PeerIdentity} (hunknown : m.Unknown peer)
      (htarget : m.NoTarget peer) (hfresh : m.NoClient peer)
      (hroom : m.clients.size < m.limits.maxClients)
      (hprocesses : m.processes.size + m.reservedProcesses < m.limits.maxProcesses)
      (hpids : m.nextPid ≤ i32Max) : Change e m (m.spawn peer)
  | connectFork [hasks : e.Asks] {peer : PeerIdentity} {id : Nat} {t : Transaction}
      {snapshot : Snapshot}
      (hunknown : m.Unknown peer) (htarget : m.NoTarget peer) (hfresh : m.NoClient peer)
      (hroom : m.clients.size < m.limits.maxClients)
      (ht : m.transactions[id]? = some t) (hprepared : t.state = .prepared)
      (hsnapshot : t.snapshot = some snapshot) :
      Change e m ((m.attachFork id t.ticket.child peer snapshot).addClient peer
        (.worker t.ticket.child.pid))
  | connectExec [hasks : e.Asks] {peer : PeerIdentity} {id : Nat} {t : ExecTransaction}
      (hunknown : m.Unknown peer) (hfresh : m.NoClient peer)
      (hroom : m.clients.size < m.limits.maxClients)
      (ht : m.execTransactions[id]? = some t) (htarget : t.target = peer)
      (hprepared : t.state = .prepared) :
      Change e m ((m.attachExec id m.nextClient).addClient peer (.execCandidate t.process id))
  | park [hasks : e.Asks] {pid : Nat} {p : Process} {prewarm : PrewarmState}
      (hp : m.processes[pid]? = some p) (hpark : Park m pid p prewarm) :
      Change e m (m.setPrewarm pid prewarm)
  | bindLaunch [hasks : e.Asks] {client : ClientId} {c : Client} {pid parentPid : Nat} {p : Process}
      {launch : PoolLaunch}
      (hevent : parentPid = 0 ∨ ∃ entropy : Entropy,
        e = .handle client (.activatePoolWorkerUnderParent pid parentPid launch) entropy)
      (hclient : m.clients[client]? = some c) (hcontrol : c.kind.isControl = true)
      (hp : m.processes[pid]? = some p) (hreserved : p.prewarm = .poolReserved client)
      (hself : parentPid ≠ pid)
      (hparent : parentPid = 0 ∨ ∃ q : Process, m.processes[parentPid]? = some q) :
      Change e m (m.bindLaunch pid parentPid client launch)
  | addModule [hasks : e.Asks] {client : ClientId} {pid moduleId schema : Nat} {p : Process}
      (howner : m.Owns client pid p) (hactive : p.state = .active)
      (hnew : p.snapshot.modules[moduleId]? = none)
      (hroom : m.modules[moduleId]? = some schema ∨
        m.modules[moduleId]? = none ∧ m.modules.size < m.limits.maxModules) :
      Change e m (m.addModule pid moduleId schema)
  | addState [hasks : e.Asks] {client : ClientId} {pid : Nat} {key : StateKey} {object : Object}
      {p : Process}
      (howner : m.Owns client pid p) (hactive : p.state = .active)
      (hnew : p.snapshot.states[key]? = none)
      (hroom : m.objects.size + 1 ≤ m.limits.maxObjects) :
      Change e m (m.addState pid key object)
  | setValue [hasks : e.Asks] {client : ClientId} {pid moduleId objectId value : Nat} {name : String}
      {p : Process} {entropy : Entropy}
      (hevent : e = .handle client (.writeState moduleId name value) entropy)
      (howner : m.Owns client pid p) (hactive : p.state = .active)
      (hkey : p.snapshot.states[(moduleId, name)]? = some objectId) :
      Change e m (m.setValue objectId value)
  | reserveFork [hasks : e.Asks] {client : ClientId} {pid requestKey parentPid next : Nat} {p : Process}
      {token : String} {objects : Table Object} {states : StateTable}
      (howner : m.Owns client pid p) (hactive : p.state = .active)
      (hkey : p.requestKeys[requestKey]? = none)
      (hparent : parentPid = pid ∨ parentPid = p.identity.parentPid)
      (hkeys : p.requestKeys.size + p.execRequestKeys.size < m.limits.maxRequestKeysPerProcess)
      (hroom : m.transactions.size + m.execTransactions.size < m.limits.maxTransactions)
      (hprocesses : m.processes.size + m.reservedProcesses < m.limits.maxProcesses)
      (hpids : m.nextPid ≤ i32Max)
      (hcopied : Copied m.objects m.nextObject p.snapshot.states objects next states)
      (hobjects : objects.size ≤ m.limits.maxObjects) :
      Change e m (m.reserveFork pid requestKey parentPid token objects next
        { p.snapshot with states := states })
  | forkReady [hasks : e.Asks] {client : ClientId} {pid id : Nat} {p : Process}
      (howner : m.Owns client pid p) (hpending : p.state = .pending id) :
      Change e m (m.setReady id)
  | commitFork [hasks : e.Asks] {client : ClientId} {pid id : Nat} {p : Process} {t : Transaction}
      (howner : m.Owns client pid p) (ht : m.transactions[id]? = some t)
      (hparent : t.parent = pid) (hready : t.state = .ready) :
      Change e m (m.activateChild t.ticket.child.pid id)
  | abortFork {id : Nat} {t : Transaction} (hevent : e.Collects)
      (ht : m.transactions[id]? = some t) (hpending : t.state.terminal = false) :
      Change e m (m.abortTransaction id)
  | collect : Change e m m.collectObjects
  | addExec [hasks : e.Asks] {client : ClientId} {pid requestKey : Nat} {p : Process}
      {target : PeerIdentity}
      (howner : m.Owns client pid p) (hactive : p.state = .active)
      (hkey : p.execRequestKeys[requestKey]? = none)
      (hidle : ∀ (i : Nat) (u : ExecTransaction), m.execTransactions[i]? = some u →
        u.process = pid → u.state.terminal = true)
      (hunknown : m.Unknown target) (htarget : m.NoTarget target) (hfresh : m.NoClient target)
      (hkeys : p.requestKeys.size + p.execRequestKeys.size < m.limits.maxRequestKeysPerProcess)
      (hroom : m.transactions.size + m.execTransactions.size < m.limits.maxTransactions)
      (hretirement : m.retiredPeers.card +
        countIf m.execTransactions (fun t => !t.state.terminal) < m.limits.maxTransactions) :
      Change e m (m.addExec pid requestKey
        { process := pid
          owner := client
          ownerPeer := p.peer
          target := target
          candidate := none
          state := .prepared
          retiring := false
          candidateExit := none })
  | execReady [hasks : e.Asks] {client : ClientId} {peer : PeerIdentity} {pid id : Nat}
      {t : ExecTransaction}
      (hclient : m.clients[client]? = some ⟨peer, .execCandidate pid id⟩)
      (ht : m.execTransactions[id]? = some t) (hcandidate : t.candidate = some client)
      (hpending : t.state.terminal = false) : Change e m (m.setExecReady id)
  | commitExec [hasks : e.Asks] {client : ClientId} {pid id : Nat} {p : Process} {t : ExecTransaction}
      {entropy : Entropy} (hevent : e = .handle client (.commitExec id) entropy)
      (howner : m.Owns client pid p) (ht : m.execTransactions[id]? = some t)
      (hprocess : t.process = pid) (hclient : t.owner = client) (hready : t.state = .ready) :
      Change e m (m.retireOwner client pid id p.peer)
  | abortExec {id : Nat} {t : ExecTransaction} (ht : m.execTransactions[id]? = some t)
      (hpending : t.state.terminal = false) : Change e m (m.abortExecTransaction id)
  | forgetFork [hasks : e.Asks] {client : ClientId} {pid id : Nat} {p : Process} {t : Transaction}
      (hevent : e = .acknowledge client id) (howner : m.Owns client pid p)
      (ht : m.transactions[id]? = some t) (hparent : t.parent = pid)
      (hterminal : t.state.terminal = true) : Change e m (m.forgetTransaction pid id)
  | forgetExec [hasks : e.Asks] {client : ClientId} {pid id : Nat} {p : Process} {t : ExecTransaction}
      (hevent : e = .acknowledge client id) (howner : m.Owns client pid p)
      (ht : m.execTransactions[id]? = some t) (hprocess : t.process = pid)
      (haborted : t.state = .aborted) : Change e m (m.forgetExec pid id)
  | release {client : ClientId} (hends : e.Ends m client) :
      Change e m (m.releaseReservations client)
  | dropClient {client : ClientId} {c : Client} (hends : e.Ends m client)
      (hclient : m.clients[client]? = some c)
      (hreserved : ∀ (pid : Nat) (p : Process), m.processes[pid]? = some p →
        p.prewarm ≠ .poolReserved client)
      (hexecs : ∀ (i : Nat) (u : ExecTransaction), m.execTransactions[i]? = some u →
        u.state.terminal = false → u.owner ≠ client ∧ u.candidate ≠ some client)
      (hforks : ∀ (i : Nat) (u : Transaction), m.transactions[i]? = some u →
        u.state.terminal = false → c.kind ≠ .worker u.parent) :
      Change e m (m.eraseClient client)
  | noteExit {id : Nat} {t : ExecTransaction} {status : Int}
      (hevent : e = .processExited t.target status)
      (ht : m.execTransactions[id]? = some t) (hretiring : t.retiring = true) :
      Change e m (m.noteExit id status)
  | promote {id : Nat} {t : ExecTransaction} {status : Int}
      (hevent : e = .processExited t.ownerPeer status)
      (ht : m.execTransactions[id]? = some t) (hretiring : t.retiring = true) :
      Change e m (m.promote t)
  | endProcess {pid : Nat} {p : Process} {status : Int} {order : List Nat} {records : Table Int}
      (hevent : e = .processExited p.peer status)
      (hp : m.processes[pid]? = some p) (hfresh : m.NoClient p.peer)
      (hforks : ∀ (i : Nat) (u : Transaction), m.transactions[i]? = some u →
        u.state.terminal = false → u.parent ≠ pid ∧ u.ticket.child.pid ≠ pid)
      (hexecs : ∀ (i : Nat) (u : ExecTransaction), m.execTransactions[i]? = some u →
        u.process = pid → u.state = .aborted)
      (hrecorded : Recorded m.limits.maxExitRecords pid status m.exitOrder m.exitRecords
        order records) : Change e m (m.endProcess pid order records)
  | forgetRetired {peer : PeerIdentity} {status : Int}
      (hevent : e = .processExited peer status) (hfresh : m.NoClient peer)
      (hunowned : ∀ pid : Nat, m.peerOf pid ≠ some peer) :
      Change e m { m with retiredPeers := m.retiredPeers.erase peer }

/-- A sequence of effects of the call `e`. -/
abbrev Steps (e : Event) : StateManager → StateManager → Prop :=
  Relation.ReflTransGen (Change e)

theorem Steps.preserves {e : Event} {P : StateManager → Prop}
    (hchange : ∀ m m' : StateManager, P m → Change e m m' → P m') {m m' : StateManager}
    (hsteps : Steps e m m') (hm : P m) : P m' := by
  induction hsteps with
  | refl => exact hm
  | tail _ hlast ih => exact hchange _ _ ih hlast

end Kinakaze.Manager
