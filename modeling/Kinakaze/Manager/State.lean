import Kinakaze.Library.OrderedTable
import Kinakaze.Library.StatefulCall
import Kinakaze.Protocol.Message
import Mathlib.Data.Finset.Card

/-!
# The data of the process manager

`StateManager` is the platform-independent ownership and fork-transaction state
machine.  The server serializes calls under one mutex, so a call is a function
from one manager state to the next; there is no interleaving inside a call.

Ordered maps are `Table`s.  Identifiers and counters are natural numbers: the
checks against `u64::MAX` and `i32::MAX` that keep the counters in range are
part of the functions that use them.
-/

namespace Kinakaze.Manager

open Std Kinakaze.Library Kinakaze.Protocol

abbrev ClientId := Nat

def u64Max : Nat := 2 ^ 64 - 1

def usizeMax : Nat := 2 ^ 64 - 1

def i32Max : Nat := 2 ^ 31 - 1

/-- A native process: the host's process number together with its birth time. -/
structure PeerIdentity where
  hostPid : Nat
  birth : Nat
  deriving DecidableEq

structure Limits where
  maxClients : Nat
  maxProcesses : Nat
  maxModules : Nat
  maxStatesPerProcess : Nat
  maxStateNameBytes : Nat
  maxRequestKeysPerProcess : Nat
  maxTransactions : Nat
  maxObjects : Nat
  maxExitRecords : Nat
  /-- The bounds are machine words. -/
  inRange : maxClients ≤ usizeMax ∧ maxProcesses ≤ usizeMax ∧ maxModules ≤ usizeMax
    ∧ maxStatesPerProcess ≤ usizeMax ∧ maxStateNameBytes ≤ usizeMax
    ∧ maxRequestKeysPerProcess ≤ usizeMax ∧ maxTransactions ≤ usizeMax
    ∧ maxObjects ≤ usizeMax ∧ maxExitRecords ≤ usizeMax

def Limits.default : Limits where
  maxClients := 2048
  maxProcesses := 1024
  maxModules := 128
  maxStatesPerProcess := 4096
  maxStateNameBytes := Protocol.maxStateNameBytes
  maxRequestKeysPerProcess := 1024
  maxTransactions := 4096
  maxObjects := 262144
  maxExitRecords := 4096
  inRange := by decide

inductive ClientKind
  | helper
  | controller
  | launcher
  | worker (pid : Nat)
  | execCandidate (pid transaction : Nat)
  | retired (pid transaction : Nat)
  deriving DecidableEq

/-- Controllers and launchers: the connections that own no native worker. -/
@[grind] def ClientKind.isControl : ClientKind → Bool
  | .controller | .launcher => true
  | _ => false

structure Client where
  peer : PeerIdentity
  kind : ClientKind
  deriving DecidableEq

/-- A module and a state name. -/
abbrev StateKey := Nat × String

/-- Module first, then name. -/
def StateKey.cmp : StateKey → StateKey → Ordering :=
  compareLex (compareOn Prod.fst) (compareOn Prod.snd)

instance : TransCmp StateKey.cmp :=
  inferInstanceAs (TransCmp (compareLex (compareOn Prod.fst) (compareOn Prod.snd)))

instance : LawfulEqCmp StateKey.cmp where
  eq_of_compare {a b} h := by
    obtain ⟨hmodule, hname⟩ := compareLex_eq_eq.mp h
    exact Prod.ext (LawfulEqCmp.eq_of_compare hmodule) (LawfulEqCmp.eq_of_compare hname)

/-- The object each defined state of a process is stored in. -/
abbrev StateTable := ExtTreeMap StateKey Nat StateKey.cmp

structure Snapshot where
  modules : Table Nat
  states : StateTable

def Snapshot.empty : Snapshot := ⟨∅, ∅⟩

inductive ProcessState
  | active
  | pending (transaction : Nat)
  | aborted
  deriving DecidableEq

def ProcessState.isPending : ProcessState → Bool
  | .pending _ => true
  | _ => false

inductive PrewarmState
  | fresh
  | ready
  | activated
  | poolReady
  | poolReserved (client : ClientId)
  | poolActivated (launch : PoolLaunch) (owner : ClientId) (parentPid : Nat)
  deriving DecidableEq

structure Process where
  identity : ProcessIdentity
  peer : PeerIdentity
  snapshot : Snapshot
  state : ProcessState
  requestKeys : Table Nat
  execRequestKeys : Table Nat
  prewarm : PrewarmState

structure Object where
  value : Nat
  initial : Nat
  fork : ForkPolicy

inductive TransactionState
  | prepared
  | adopted
  | ready
  | committed
  | aborted
  deriving DecidableEq

/-- Committed or aborted: nothing can change the outcome any more. -/
@[grind] def TransactionState.terminal : TransactionState → Bool
  | .committed | .aborted => true
  | _ => false

structure Transaction where
  parent : Nat
  requestedParent : Nat
  ticket : ForkTicket
  snapshot : Option Snapshot
  state : TransactionState

structure ExecTransaction where
  process : Nat
  owner : ClientId
  ownerPeer : PeerIdentity
  target : PeerIdentity
  candidate : Option ClientId
  state : TransactionState
  /-- Commit is irreversible, but only a native death notification of the old
  worker may activate the replacement. -/
  retiring : Bool
  candidateExit : Option Int

inductive NativeExecState
  | unreserved
  | pending
  | committed
  | aborted
  deriving DecidableEq

structure StateManager where
  epoch : Nat
  token : String
  limits : Limits
  clients : Table Client
  processes : Table Process
  modules : Table Nat
  objects : Table Object
  transactions : Table Transaction
  execTransactions : Table ExecTransaction
  /-- Workers an exec replaced and candidates an abort revoked, until the
  transport observes their native exit. -/
  retiredPeers : Finset PeerIdentity
  exitRecords : Table Int
  exitOrder : List Nat
  nextClient : Nat
  nextPid : Nat
  nextObject : Nat
  nextTransaction : Nat
  shutdownRequested : Bool
  singleRoot : Bool

def StateManager.withLimits (epoch : Nat) (token : String) (limits : Limits) : StateManager where
  epoch := epoch
  token := token
  limits := limits
  clients := ∅
  processes := ∅
  modules := ∅
  objects := ∅
  transactions := ∅
  execTransactions := ∅
  retiredPeers := ∅
  exitRecords := ∅
  exitOrder := []
  nextClient := 1
  nextPid := 1
  nextObject := 1
  nextTransaction := 1
  shutdownRequested := false
  singleRoot := false

def StateManager.new (epoch : Nat) (token : String) : StateManager :=
  StateManager.withLimits epoch token Limits.default

/-- A Linux process tree has one initial process.  Later images must arrive
through their creator's fork reservation or an existing exec transaction. -/
def StateManager.forProcessTree (epoch : Nat) (token : String) : StateManager :=
  { StateManager.new epoch token with singleRoot := true }

/-! ## Outcomes -/

/-- How a call can stop before it returns. -/
inductive Fault
  /-- The call answers with an error. -/
  | rejected (error : RpcError)
  /-- An `unwrap`, an `expect`, an index or an `unreachable!` failed. -/
  | panicked (site : String)
  /-- The bound on nested exit notifications was too small. -/
  | exhausted
  deriving DecidableEq

/-- A call on the manager. -/
abbrev Rpc (α : Type) := Call Fault StateManager α

def error (code : ErrorCode) (message : String) : Fault :=
  .rejected ⟨code, message⟩

def limit (message : String) : Fault :=
  error .limitExceeded message

/-- `Option::unwrap`, `Option::expect` and map indexing. -/
def unwrap {α : Type} (found : Option α) (site : String) : Rpc α :=
  require found (.panicked site)

/-! ## Credentials -/

/-- The UTF-8 bytes of a string. -/
def utf8Bytes (text : String) : List UInt8 := text.toUTF8.data.toList

/-- Credentials of equal length are compared without an early return. -/
def secretEqual (left right : String) : Bool :=
  if left.utf8ByteSize ≠ right.utf8ByteSize then false
  else
    ((utf8Bytes left).zip (utf8Bytes right)).foldl
      (fun diff pair => diff ||| (pair.1 ^^^ pair.2)) 0 == 0

/-- What the operating system's generator delivers to one call: 32 bytes, or a
failure. -/
abbrev Entropy := Option (Vector UInt8 32)

/-- The two hexadecimal digits of a byte. -/
def hexByte (byte : UInt8) : List Char :=
  [Nat.digitChar (byte.toNat / 16), Nat.digitChar (byte.toNat % 16)]

def secureTicket (entropy : Entropy) : Rpc String := do
  let bytes ← require entropy (error .internal "OS entropy unavailable")
  return String.ofList (bytes.toList.flatMap hexByte)

end Kinakaze.Manager

/-!
## Module state

Modules register a schema, define named states with an initial value and a
fork policy, and read and write them.  A state is an object; a process reaches
it through its snapshot.
-/

namespace Kinakaze.Manager

open Kinakaze.Library Kinakaze.Protocol

def StateManager.addModule (m : StateManager) (pid moduleId schema : Nat) : StateManager :=
  { m with
    modules := m.modules.insert moduleId schema
    processes := m.processes.modify pid fun p =>
      { p with snapshot.modules := p.snapshot.modules.insert moduleId schema } }

def registerModule (pid moduleId schema : Nat) : Rpc Reply := do
  let m ← get
  let process ← unwrap m.processes[pid]? "registerModule: process"
  match process.snapshot.modules[moduleId]? with
  | some existing =>
    failIf (existing ≠ schema) (error .conflict "module schema differs from registered schema")
    return .ok
  | none =>
    failIf process.state.isPending
      (error .notReady "child may only validate inherited modules before commit")
    match m.modules[moduleId]? with
    | some existing =>
      failIf (existing ≠ schema) (error .conflict "module schema differs from manager schema")
    | none =>
      failIf (m.limits.maxModules ≤ m.modules.size) (limit "module limit reached")
    set (m.addModule pid moduleId schema)
    return .ok

/-- `char::is_control`: the Unicode category `Cc`. -/
def isControlChar (c : Char) : Bool :=
  decide (c.toNat < 32 ∨ 127 ≤ c.toNat ∧ c.toNat ≤ 159)

def validateName (name : String) : Rpc PUnit := do
  let m ← get
  failIf (name.isEmpty ∨ name.toList.any isControlChar)
    (error .invalidRequest "state name is empty or contains control characters")
  failIf (min m.limits.maxStateNameBytes maxStateNameBytes < name.utf8ByteSize)
    (limit "state name exceeds byte limit")

/-- Room for `count` more objects, in the table and in the identifier space. -/
def checkObjectCapacity (count : Nat) : Rpc PUnit := do
  let m ← get
  failIf (usizeMax < m.objects.size + count ∨ m.limits.maxObjects < m.objects.size + count
      ∨ u64Max < m.nextObject + count)
    (limit "state object limit reached")

def StateManager.insertObject (m : StateManager) (object : Object) : StateManager :=
  { m with
    nextObject := m.nextObject + 1
    objects := m.objects.insert m.nextObject object }

/-- A new state of process `pid`, in a new object. -/
def StateManager.addState (m : StateManager) (pid : Nat) (key : StateKey)
    (object : Object) : StateManager :=
  { m.insertObject object with
    processes := m.processes.modify pid fun p =>
      { p with snapshot.states := p.snapshot.states.insert key m.nextObject } }

def defineState (pid moduleId : Nat) (name : String) (initial : Nat)
    (fork : ForkPolicy) : Rpc Reply := do
  validateName name
  let m ← get
  let process ← unwrap m.processes[pid]? "defineState: process"
  failIf (process.snapshot.modules[moduleId]? = none)
    (error .notFound "module must register before defining state")
  match process.snapshot.states[(moduleId, name)]? with
  | some objectId =>
    let object ← unwrap m.objects[objectId]? "defineState: object"
    failIf (object.initial ≠ initial ∨ object.fork ≠ fork)
      (error .conflict "state definition differs from existing policy or initial value")
    return .state objectId object.value
  | none =>
    failIf (m.limits.maxStatesPerProcess ≤ process.snapshot.states.size)
      (limit "per-process state limit reached")
    checkObjectCapacity 1
    set (m.addState pid (moduleId, name) ⟨initial, initial, fork⟩)
    return .state m.nextObject initial

def stateObject (pid moduleId : Nat) (name : String) : Rpc Nat := do
  validateName name
  let m ← get
  let process ← unwrap m.processes[pid]? "stateObject: process"
  require process.snapshot.states[(moduleId, name)]?
    (error .notFound "state is not defined in this process")

def readState (pid moduleId : Nat) (name : String) : Rpc Reply := do
  let objectId ← stateObject pid moduleId name
  let m ← get
  let object ← unwrap m.objects[objectId]? "readState: object"
  return .state objectId object.value

def StateManager.setValue (m : StateManager) (objectId value : Nat) : StateManager :=
  { m with objects := m.objects.modify objectId fun o => { o with value := value } }

def writeState (pid moduleId : Nat) (name : String) (value : Nat) : Rpc Reply := do
  let objectId ← stateObject pid moduleId name
  let m ← get
  let _ ← unwrap m.objects[objectId]? "writeState: object"
  set (m.setValue objectId value)
  return .ok

/-- The objects some process or some fork reservation still refers to. -/
def StateManager.liveObjects (m : StateManager) : List Nat :=
  (valuesOf m.processes).flatMap (fun p => valuesOf p.snapshot.states)
    ++ (valuesOf m.transactions).flatMap fun t =>
      match t.snapshot with
      | some snapshot => valuesOf snapshot.states
      | none => []

def StateManager.collectObjects (m : StateManager) : StateManager :=
  { m with objects := m.objects.filter fun id _ => m.liveObjects.contains id }

end Kinakaze.Manager
