import Mathlib.Algebra.Ring.Nat
import Mathlib.Algebra.Ring.Int.Defs
import Kinakaze.Library.Run

/-!
# Waiting on an epoll set

`epoll.rs`: a wait copies the registrations under the lock, samples them without it, and comes back
to the lock for each of them, to clear what is no longer true and to deliver what is. In between
other waits, `epoll_ctl`, closes and I/O take the lock.
-/

namespace Kinakaze.Epoll

open Library

/-! ## Events -/

abbrev Bits := BitVec 32

def EPOLLIN : Bits := 0x001
def EPOLLPRI : Bits := 0x002
def EPOLLOUT : Bits := 0x004
def EPOLLERR : Bits := 0x008
def EPOLLHUP : Bits := 0x010
def EPOLLRDNORM : Bits := 0x040
def EPOLLRDBAND : Bits := 0x080
def EPOLLWRNORM : Bits := 0x100
def EPOLLRDHUP : Bits := 0x2000
def EPOLLONESHOT : Bits := 0x40000000
def EPOLLET : Bits := 0x80000000

def AFD_POLL_RECEIVE : Bits := 0x0001
def AFD_POLL_RECEIVE_EXPEDITED : Bits := 0x0002
def AFD_POLL_SEND : Bits := 0x0004
def AFD_POLL_DISCONNECT : Bits := 0x0008
def AFD_POLL_ABORT : Bits := 0x0010
def AFD_POLL_LOCAL_CLOSE : Bits := 0x0020
def AFD_POLL_ACCEPT : Bits := 0x0080
def AFD_POLL_CONNECT_FAIL : Bits := 0x0100

/-- `bits` when a condition holds. -/
def select (condition : Bool) (bits : Bits) : Bits := if condition then bits else 0

/-- Whether two have a bit in common. -/
def meets (a b : Bits) : Bool := a &&& b != 0

def interestToAfd (interest : Bits) : Bits :=
  select (meets interest (EPOLLIN ||| EPOLLRDNORM))
      (AFD_POLL_RECEIVE ||| AFD_POLL_ACCEPT ||| AFD_POLL_DISCONNECT) |||
    select (meets interest (EPOLLPRI ||| EPOLLRDBAND)) AFD_POLL_RECEIVE_EXPEDITED |||
    select (meets interest (EPOLLOUT ||| EPOLLWRNORM)) AFD_POLL_SEND |||
    (AFD_POLL_ABORT ||| AFD_POLL_CONNECT_FAIL ||| AFD_POLL_LOCAL_CLOSE)

/-- The events of AFD, before they are held against the interest. -/
def afdConditions (afd : Bits) : Bits :=
  select (meets afd (AFD_POLL_RECEIVE ||| AFD_POLL_ACCEPT)) (EPOLLIN ||| EPOLLRDNORM) |||
    select (meets afd AFD_POLL_RECEIVE_EXPEDITED) (EPOLLPRI ||| EPOLLRDBAND) |||
    select (meets afd AFD_POLL_SEND) (EPOLLOUT ||| EPOLLWRNORM) |||
    select (meets afd AFD_POLL_DISCONNECT) (EPOLLIN ||| EPOLLRDNORM ||| EPOLLRDHUP) |||
    select (meets afd AFD_POLL_ABORT) EPOLLHUP |||
    select (meets afd (AFD_POLL_CONNECT_FAIL ||| AFD_POLL_LOCAL_CLOSE)) EPOLLERR

def afdToEvents (afd interest : Bits) : Bits :=
  afdConditions afd &&& (interest ||| EPOLLERR ||| EPOLLHUP ||| EPOLLRDHUP)

/-! ## Registrations -/

/-- What is done to find out whether it is ready. -/
inductive Category where
  | packet
  | fifo
  | unix
  | eventfd
  | netlink
  | inotify
  | pty
  | pipe
  | socket
  | immediate
  deriving DecidableEq

/-- `RegistrationKey`. -/
structure Key where
  fd : Int
  descriptionId : Nat
  deriving DecidableEq

/-- The generations of reads and writes. -/
abbrev Edges := BitVec 64 × BitVec 64

structure Registration where
  category : Category
  object : Nat
  /-- Negative when no descriptor of this process names the description. -/
  pollFd : Int
  interest : Bits
  data : BitVec 64
  disarmed : Bool := false
  reported : Bits := 0
  readinessRevision : BitVec 64 := 0
  eventfdEdges : Edges := (0, 0)

namespace Registration

def edgeTriggered (r : Registration) : Bool := meets r.interest EPOLLET

def oneshot (r : Registration) : Bool := meets r.interest EPOLLONESHOT

/-- `pending_afd_events`, of a socket. An edge that was reported is left out. -/
def pendingAfdEvents (r : Registration) : Bits :=
  let events := interestToAfd r.interest ||| select (meets r.interest EPOLLRDHUP) AFD_POLL_DISCONNECT
  if r.edgeTriggered then
    [AFD_POLL_RECEIVE, AFD_POLL_RECEIVE_EXPEDITED, AFD_POLL_SEND, AFD_POLL_DISCONNECT,
      AFD_POLL_ABORT, AFD_POLL_LOCAL_CLOSE, AFD_POLL_ACCEPT, AFD_POLL_CONNECT_FAIL].foldl
      (fun events bit =>
        if afdToEvents bit r.interest &&& ~~~r.reported = 0 then events &&& ~~~bit else events)
      events
  else events

/-- Whether a wait takes a copy. -/
def collected (r : Registration) : Bool :=
  if r.disarmed then false
  else if r.pollFd < 0 then r.object ≠ 0
  else if r.category = .socket then r.pendingAfdEvents ≠ 0
  else true

end Registration

/-- What a wait finds when it looks at a descriptor. -/
structure Ready where
  readable : Bool := false
  writable : Bool := false
  hangup : Bool := false
  error : Bool := false
  /-- The conditions of a packet socket or a pseudo file, or the events of AFD. -/
  mask : Bits := 0
  pseudoFile : Bool := false
  /-- The generations of an eventfd. -/
  edges : Option Edges := none

def conditions (interest : Bits) (ready : Ready) : Bits :=
  select ready.readable ((EPOLLIN ||| EPOLLRDNORM) &&& interest) |||
    select ready.writable ((EPOLLOUT ||| EPOLLWRNORM) &&& interest) |||
    select ready.hangup EPOLLHUP ||| select ready.error EPOLLERR

def packetConditions (interest mask : Bits) : Bits :=
  (mask &&& (interest ||| EPOLLERR ||| EPOLLHUP)) |||
    select (meets mask EPOLLIN) (interest &&& EPOLLRDNORM) |||
    select (meets mask EPOLLOUT) (interest &&& EPOLLWRNORM)

/-- What a wait has sampled. -/
structure Sample where
  reported : Bits
  /-- What was reported before, less the edges that are new. -/
  previous : Bits
  edges : Option Edges
  /-- What the history is cut down to, when that has not been done. -/
  clears : Option Bits

namespace Registration

variable (r : Registration) (ready : Ready)

def sampled : Bits :=
  if r.pollFd < 0 then conditions r.interest ready
  else
    match r.category with
    | .packet => packetConditions r.interest ready.mask
    | .eventfd =>
      if ready.pseudoFile then ready.mask &&& (r.interest ||| EPOLLERR ||| EPOLLHUP)
      else conditions r.interest ready
    | .socket => afdToEvents ready.mask r.interest
    | .immediate => r.interest &&& (EPOLLIN ||| EPOLLOUT ||| EPOLLRDNORM ||| EPOLLWRNORM)
    | _ => conditions r.interest ready

/-- Only what is polled like an eventfd has edges. -/
def sampledEdges : Option Edges :=
  if r.pollFd < 0 ∨ r.category = .eventfd then some (ready.edges.getD r.eventfdEdges) else none

/-- What was reported before, without the conditions that have become true again since. -/
def previous (edges : Edges) : Bits :=
  r.reported &&& ~~~(select (edges.1 != r.eventfdEdges.1) (EPOLLIN ||| EPOLLRDNORM ||| EPOLLERR) |||
      select (edges.2 != r.eventfdEdges.2) (EPOLLOUT ||| EPOLLWRNORM))

/-- Sockets are not cleared by what they report, and the history of their edges not at all. -/
def clears : Option Bits :=
  if r.pollFd < 0 then some (r.sampled ready)
  else
    match r.category with
    | .socket => if ready.mask = 0 ∧ !r.edgeTriggered then some 0 else none
    | .immediate => none
    | _ => some (r.sampled ready)

def sample : Sample where
  reported := r.sampled ready
  previous := r.previous ((r.sampledEdges ready).getD r.eventfdEdges)
  edges := r.sampledEdges ready
  clears := r.clears ready

end Registration

/-- The history with what is delivered, unless an I/O operation came in between. -/
def Registration.record (r : Registration) (reported : Bits) (revision : BitVec 64)
    (edges : Option Edges) : Registration :=
  if r.readinessRevision = revision then
    { r with reported := r.reported ||| reported, eventfdEdges := edges.getD r.eventfdEdges }
  else r

/-- `finish_delivery_with_edges`: the registration afterwards, if the delivery is accepted. -/
def finishDelivery (r : Registration) (alive : Bool) (reported : Bits) (revision : BitVec 64)
    (edges : Option Edges) : Option Registration :=
  if (r.pollFd < 0 ∧ (r.object = 0 ∨ !alive)) ∨ r.disarmed ∨
      (r.edgeTriggered ∧ reported &&& ~~~r.reported = 0 ∧ edges.all (· == r.eventfdEdges)) then none
  else
    let r := r.record reported revision edges
    some (if r.oneshot then { r with disarmed := true } else r)

/-- The history that an I/O operation has consumed. -/
def Registration.consume (r : Registration) (events : Bits) : Registration :=
  { r with
    readinessRevision := r.readinessRevision + 1, reported := r.reported &&& ~~~events }

/-! ## The set and its waits -/

/-- The copy that a wait has taken. The last three fields are history that the code does not keep:
whether the registration was since added again or given another cookie or interest, and how often
and which conditions were since consumed. -/
structure Entry where
  registration : Registration
  sample : Option Sample := none
  replaced : Bool := false
  consumed : Nat := 0
  stale : Bits := 0

/-- An event that was delivered, and the registration that was there when it was accepted. -/
structure Delivery where
  key : Key
  events : Bits
  data : BitVec 64
  registration : Registration

structure State where
  /-- Whether other processes share the set. -/
  shared : Bool
  registrations : Key → Option Registration := fun _ => none
  waits : Nat → Key → Option Entry := fun _ _ => none
  /-- The deliveries so far, the last one first. -/
  log : List Delivery := []
  /-- The conditions that were delivered since they were last consumed, by waits that began after
  that. -/
  fresh : Key → Bits := fun _ => 0
  /-- The deliveries that each one-shot registration has had since it was armed. -/
  shots : Key → Nat := fun _ => 0

structure Event where
  events : Bits
  data : BitVec 64

inductive Call where
  | add (key : Key) (category : Category) (object : Nat) (event : Event)
  | modify (key : Key) (event : Event)
  | delete (key : Key)
  | descriptorClosed (descriptionId : Nat) (survivor : Option Int) (alive : Bool)
  | descriptorRebound (fd : Int) (descriptionId : Nat)
  | readinessConsumed (descriptionId : Nat) (events : Bits)
  /-- Taking the lock finds a descriptor for a registration that had none. -/
  | resolve (key : Key) (fd : Int)
  /-- Taking the lock removes a registration whose description is gone. -/
  | retire (key : Key)
  | snapshot (wait : Nat)
  | sample (wait : Nat) (key : Key) (ready : Ready)
  | clear (wait : Nat) (key : Key)
  | deliver (wait : Nat) (key : Key) (alive : Bool)

namespace State

/-- Each registration is changed or removed. -/
def mapped (s : State) (f : Key → Registration → Option Registration) : State :=
  { s with registrations := fun key => (s.registrations key).bind (f key) }

def setEntry (s : State) (wait : Nat) (key : Key) (e : Option Entry) : State :=
  { s with waits := Function.update s.waits wait (Function.update (s.waits wait) key e) }

/-- The copies of the registration are out of date. -/
def replace (s : State) (key : Key) : State :=
  { s with
    waits := fun wait => Function.update (s.waits wait) key
      ((s.waits wait key).map fun e => { e with replaced := true }) }

def add (s : State) (key : Key) (category : Category) (object : Nat) (event : Event) : State :=
  match s.registrations key with
  | some _ => s
  | none =>
    { s.replace key with
      registrations := Function.update s.registrations key (some
        { category := category, object := object, pollFd := key.fd, interest := event.events,
          data := event.data })
      fresh := Function.update s.fresh key 0
      shots := Function.update s.shots key 0 }

def modify (s : State) (key : Key) (event : Event) : State :=
  match s.registrations key with
  | none => s
  | some r =>
    let s' := if event.events = r.interest ∧ event.data = r.data then s else s.replace key
    { s' with
      registrations := Function.update s.registrations key (some
        { r with interest := event.events, data := event.data, disarmed := false, reported := 0 })
      shots := Function.update s.shots key 0 }

def descriptorClosed (s : State) (descriptionId : Nat) (survivor : Option Int) (alive : Bool) :
    State :=
  s.mapped fun key r =>
    if key.descriptionId ≠ descriptionId then some r
    else
      match survivor with
      | some fd => some { r with pollFd := fd }
      | none => if s.shared && alive then some { r with pollFd := -1 } else none

def descriptorRebound (s : State) (fd : Int) (descriptionId : Nat) : State :=
  s.mapped fun key r =>
    if key.descriptionId = descriptionId then some { r with pollFd := fd, reported := 0 } else some r

def readinessConsumed (s : State) (descriptionId : Nat) (events : Bits) : State :=
  if descriptionId = 0 ∨ events = 0 then s
  else
    { s with
      registrations := fun key => (s.registrations key).map fun r =>
        if key.descriptionId = descriptionId ∧ meets r.interest events then r.consume events else r
      waits := fun wait key => (s.waits wait key).map fun e =>
        if key.descriptionId = descriptionId then
          { e with consumed := e.consumed + 1, stale := e.stale ||| events }
        else e
      fresh := fun key =>
        if key.descriptionId = descriptionId then s.fresh key &&& ~~~events else s.fresh key }

def resolve (s : State) (key : Key) (fd : Int) : State :=
  s.mapped fun key' r =>
    if key' = key ∧ r.pollFd < 0 then some { r with pollFd := fd } else some r

def retire (s : State) (key : Key) : State :=
  s.mapped fun key' r => if key' = key ∧ r.pollFd < 0 then none else some r

def snapshot (s : State) (wait : Nat) : State :=
  { s with
    waits := Function.update s.waits wait fun key =>
      match s.registrations key with
      | none => none
      | some r => if r.collected then some { registration := r } else none }

def sample (s : State) (wait : Nat) (key : Key) (ready : Ready) : State :=
  match s.waits wait key with
  | none => s
  | some e =>
    match e.sample with
    | some _ => s
    | none => s.setEntry wait key (some { e with sample := some (e.registration.sample ready) })

/-- `clear_absent_readiness`. -/
def clear (s : State) (wait : Nat) (key : Key) : State :=
  match s.waits wait key with
  | none => s
  | some e =>
    match e.sample with
    | none => s
    | some sample =>
      match sample.clears with
      | none => s
      | some current =>
        (s.mapped fun key' r =>
          if key' = key then some { r with reported := r.reported &&& current }
          else some r).setEntry wait key
          (some { e with sample := some { sample with clears := none } })

/-- The registration is delivered: an event goes out with what was copied of it. -/
def accept (s : State) (key : Key) (e : Entry) (sample : Sample) (r r' : Registration) : State :=
  { s with
    registrations := Function.update s.registrations key (some r')
    log := ⟨key, sample.reported, e.registration.data, r⟩ :: s.log
    fresh := Function.update s.fresh key (s.fresh key ||| (sample.reported &&& ~~~e.stale))
    shots :=
      if r.oneshot then Function.update s.shots key (s.shots key + 1) else s.shots }

def deliver (s : State) (wait : Nat) (key : Key) (alive : Bool) : State :=
  match s.waits wait key with
  | none => s
  | some e =>
    match e.sample with
    | none => s
    | some sample =>
      if sample.clears.isSome then s
      else if sample.reported = 0 ∨
          (e.registration.edgeTriggered ∧ sample.reported &&& ~~~sample.previous = 0) then
        s.setEntry wait key none
      else
        match s.registrations key with
        | none => s.setEntry wait key none
        | some r =>
          match finishDelivery r alive sample.reported e.registration.readinessRevision
            sample.edges with
          | none => s.setEntry wait key none
          | some r' => (s.accept key e sample r r').setEntry wait key none

def step (s : State) : Call → State
  | .add key category object event => s.add key category object event
  | .modify key event => s.modify key event
  | .delete key => s.mapped fun key' r => if key' = key then none else some r
  | .descriptorClosed descriptionId survivor alive =>
    s.descriptorClosed descriptionId survivor alive
  | .descriptorRebound fd descriptionId => s.descriptorRebound fd descriptionId
  | .readinessConsumed descriptionId events => s.readinessConsumed descriptionId events
  | .resolve key fd => s.resolve key fd
  | .retire key => s.retire key
  | .snapshot wait => s.snapshot wait
  | .sample wait key ready => s.sample wait key ready
  | .clear wait key => s.clear wait key
  | .deliver wait key alive => s.deliver wait key alive

end State

end Kinakaze.Epoll
