import Mathlib.Algebra.Ring.Nat
import Mathlib.Algebra.Ring.Int.Defs
import Mathlib.Tactic.Common

/-!
# Control-plane messages

The bounded, pointer-free messages a runtime exchanges with the process
manager, as the manager reads them.  Payloads the manager passes through
without looking at them (image sources, catalog directories, the arguments of
kernel commands) are left out; the variants that carry them stay.

Text is compared and measured the way the wire does it: lengths are byte
lengths of the UTF-8 encoding.
-/

namespace Kinakaze.Protocol

def protocolVersion : Nat := 4

def controlProtocolVersion : Nat := 1

def supportedVersion (version : Nat) : Bool :=
  decide (controlProtocolVersion ≤ version ∧ version ≤ protocolVersion)

def maxStateNameBytes : Nat := 128

/-- A string holds a NUL character. -/
def containsNul (text : String) : Bool := text.toList.contains '\x00'

/-- A string spells an absolute Linux path. -/
def startsWithSlash (text : String) : Bool := text.toList.head? == some '/'

/-- Bound to a fresh pooled worker only after the controller reserves it. -/
structure PoolLaunch where
  arguments : List String
  cwd : String
  environment : Option (List String)
  deriving DecidableEq

def PoolLaunch.valid (launch : PoolLaunch) : Bool :=
  (match launch.arguments.head? with
    | some program => startsWithSlash program
    | none => false)
  && startsWithSlash launch.cwd
  && !containsNul launch.cwd
  && !launch.arguments.any containsNul
  && !(match launch.environment with
    | some values => values.any containsNul
    | none => false)

inductive ClientRole
  | worker
  | controller
  /-- A reconnectable host client, authenticated with a separate launch credential. -/
  | launcher
  /-- Native infrastructure with no Linux PID and no management privileges. -/
  | helper
  deriving DecidableEq

structure Hello where
  version : Nat
  token : String
  role : ClientRole
  adoptionTicket : Option String
  deriving DecidableEq

inductive ForkPolicy
  | copy
  | share
  | reset
  deriving DecidableEq

/-- One module of a native fork bootstrap. -/
structure Module where
  base : Nat
  path : String
  deriving DecidableEq

/-- A bounded bootstrap description. -/
structure Spec where
  modules : List Module
  deriving DecidableEq

/-- `isize::MAX` of the 64-bit hosts the manager runs on. -/
def isizeMax : Nat := 2 ^ 63 - 1

def Spec.valid (spec : Spec) : Bool :=
  !spec.modules.isEmpty
  && decide (spec.modules.length ≤ 128)
  && decide ((spec.modules.map fun m => m.path.utf8ByteSize).sum ≤ 16384)
  && spec.modules.all (fun m =>
    m.base != 0
    && decide (m.base ≤ isizeMax)
    && m.base % 65536 == 0
    && !m.path.isEmpty
    && decide (m.path.utf8ByteSize ≤ 4096)
    && !containsNul m.path)
  && (spec.modules.zip spec.modules.tail).all fun pair =>
    decide (pair.1.base < pair.2.base)

/-- The kernel commands; the manager only tells `retain` and `lease` apart from
the others. -/
inductive KernelCommand
  | fileWriteback
  | resourceOwner
  | retainResources
  | resources
  | resourceSocket
  | releaseResources
  | watchDirectory
  | removeDirectoryWatch
  | unlease
  | mountNamespaces
  | removeCgroup
  | removeIpc
  | lease
  | retain
  | publishMounts
  deriving DecidableEq

/-- The commands a process may issue before its fork or exec commits. -/
def KernelCommand.pinsOnly : KernelCommand → Bool
  | .retain | .lease => true
  | _ => false

inductive Request
  | hello (hello : Hello)
  | identity
  | kernel (command : KernelCommand)
  | imageSnapshot
  | nativeCatalog
  | nativeFork (transaction : Nat) (spec : Spec)
  | nativeExec
  | processMemoryTarget (pid : Nat) (write : Bool)
  | registerModule (moduleId schema : Nat)
  | defineState (moduleId : Nat) (name : String) (initial : Nat) (fork : ForkPolicy)
  | readState (moduleId : Nat) (name : String)
  | writeState (moduleId : Nat) (name : String) (value : Nat)
  | prepareFork (requestKey : Nat)
  /-- `CLONE_PARENT` keeps the caller's parent; arbitrary reparenting is rejected. -/
  | prepareForkWithParent (requestKey parentPid : Nat)
  | markReady
  | awaitActivation
  | awaitForkReady (transaction : Nat)
  | commitFork (transaction : Nat)
  | abortFork (transaction : Nat)
  /-- Reserve a replacement native worker for the caller's existing Linux PID. -/
  | prepareExec (requestKey replacementHostPid replacementBirth : Nat)
  | awaitExecReady (transaction : Nat)
  | commitExec (transaction : Nat)
  | abortExec (transaction : Nat)
  | awaitExit (pid : Nat)
  | markPrewarmReady
  | awaitPrewarmActivation
  | awaitPrewarmReady (pid : Nat)
  | activatePrewarm (pid : Nat)
  | markPoolReady
  | awaitPoolActivation
  | awaitPoolReady (minimum : Nat)
  /-- Reservation ownership is scoped to this control connection until activation. -/
  | reservePoolWorker
  | releasePoolWorker (pid : Nat)
  | activatePoolWorker (pid : Nat) (launch : PoolLaunch)
  /-- Insert a fresh process under a live process in this init's tree. -/
  | activatePoolWorkerUnderParent (pid parentPid : Nat) (launch : PoolLaunch)
  | stats
  | shutdown
  deriving DecidableEq

structure ProcessIdentity where
  epoch : Nat
  pid : Nat
  generation : Nat
  parentPid : Nat
  deriving DecidableEq

structure ForkTicket where
  transaction : Nat
  token : String
  child : ProcessIdentity
  deriving DecidableEq

structure Stats where
  processes : Nat
  clients : Nat
  objects : Nat
  transactions : Nat
  deriving DecidableEq

/-- The replies the manager itself produces. -/
inductive Reply
  | hello (epoch : Nat) (process : Option ProcessIdentity)
  | identity (identity : ProcessIdentity)
  | processMemoryTarget (hostPid birth : Nat)
  | ok
  | poolWorker (pid hostPid birth : Nat)
  | poolLaunch (launch : PoolLaunch)
  | state (objectId value : Nat)
  | forkPrepared (ticket : ForkTicket)
  | execPrepared (transaction : Nat)
  | exit (status : Int)
  | stats (stats : Stats)
  deriving DecidableEq

inductive ErrorCode
  | invalidRequest
  | versionMismatch
  | unauthorized
  | notFound
  | conflict
  | notReady
  | aborted
  | limitExceeded
  | internal
  deriving DecidableEq

structure RpcError where
  code : ErrorCode
  message : String
  deriving DecidableEq

end Kinakaze.Protocol
