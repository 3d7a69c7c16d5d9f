import Mathlib.Algebra.Ring.Nat
import Mathlib.Algebra.Ring.Int.Defs
import Mathlib.Data.Fintype.Card
import Mathlib.Data.List.MinMax

/-!
# The slots of a TCP listener

A listener and its connections live in one arena with a bank of slots.  A slot is free, in the
handshake, ready to be accepted, or accepted; its generation tells connections apart that use it
one after the other.  What a connection's protocol state becomes is an input.
-/

namespace Kinakaze.Listener

def EBADF : Int := 9
def EAGAIN : Int := 11
def EINVAL : Int := 22
def EOVERFLOW : Int := 75

def CAPACITY : Nat := 64

abbrev Index := Fin CAPACITY

inductive SlotState
  | free
  | syn
  | ready
  | accepted
  deriving DecidableEq

structure Slot where
  state : SlotState := .free
  generation : Nat := 0
  readyOrder : Nat := 0
  description : Nat := 0

def Slot.live (s : Slot) : Bool := s.state != .free

/-- In the handshake, or waiting to be accepted. -/
def Slot.pending (s : Slot) : Bool := s.state == .syn || s.state == .ready

/-- A view of a connection: the slot and the generation it was opened for. -/
structure View where
  index : Index
  generation : Nat
  deriving DecidableEq

/-- The control block of an arena, and the views that a listener keeps. -/
structure Bank where
  active : Bool := false
  backlog : Nat := 0
  nextGeneration : Nat := 0
  nextReady : Nat := 0
  slots : Index → Slot := fun _ => {}
  children : List View := []
  -- The largest backlog, the generations that became ready, were accepted and were freed, in
  -- order, and whether a close has ended.
  largest : Nat := 0
  readied : List Nat := []
  returned : List Nat := []
  freed : List Nat := []
  closed : Bool := false

inductive TcpState
  | closed
  | listen
  | synSent
  | synReceived
  | established
  | finWait1
  | finWait2
  | closeWait
  | closing
  | lastAck
  | timeWait
  deriving DecidableEq

/-! ## Changes of one slot -/

def Bank.setSlot (b : Bank) (i : Index) (slot : Slot) : Bank :=
  { b with slots := Function.update b.slots i slot }

def Bank.free (b : Bank) (i : Index) : Bank :=
  { b.setSlot i { b.slots i with state := .free } with
    freed := (b.slots i).generation :: b.freed }

def Bank.forget (b : Bank) (i : Index) (generation : Nat) : Bank :=
  { b with children := b.children.filter (· != ⟨i, generation⟩) }

/-! ## Views -/

/-- The slot still holds the connection of the view. -/
def Bank.valid (b : Bank) (v : View) : Bool :=
  (b.slots v.index).live && (b.slots v.index).generation == v.generation

/-- `acquire` through a view, with which each of its operations begins. -/
def Bank.acquire (b : Bank) (v : View) : Except Int Unit :=
  if b.valid v then .ok () else .error EBADF

def Bank.childView (b : Bank) (i : Index) (generation : Nat) : Except Int View :=
  if b.valid ⟨i, generation⟩ then .ok ⟨i, generation⟩ else .error EBADF

/-- `child_locked`. -/
def Bank.child (b : Bank) (i : Index) (generation : Nat) : Bank × Except Int View :=
  if b.children.contains ⟨i, generation⟩ then (b, .ok ⟨i, generation⟩)
  else
    let b := { b with children := b.children.filter b.valid }
    match b.childView i generation with
    | .error e => (b, .error e)
    | .ok view => ({ b with children := view :: b.children }, .ok view)

/-! ## The operations -/

/-- `backlog.clamp(1, CAPACITY)`. -/
def clamp (backlog : Nat) : Nat := min (max 1 backlog) CAPACITY

/-- `Listener::new`, when the socket begins to listen or not. -/
def Bank.new (b : Bank) (backlog : Nat) (listened : Except Int Unit) : Bank × Except Int Unit :=
  if b.active then (b, .error EINVAL)
  else
    match listened with
    | .error e => (b, .error e)
    | .ok () =>
      ({ b with
          active := true
          backlog := clamp backlog
          largest := max b.largest (clamp backlog)
          closed := false }, .ok ())

def Bank.pendingCount (b : Bank) : Nat := (Finset.univ.filter fun i => (b.slots i).pending).card

/-- What the memory and the socket of a new connection answer. -/
structure Allocation where
  memory : Except Int Unit
  listened : Except Int Unit

/-- `allocate_locked`. -/
def Bank.allocate (b : Bank) (a : Allocation) : Bank × Except Int (Index × View) :=
  if b.pendingCount ≥ b.backlog then (b, .error EAGAIN)
  else
    match (List.finRange CAPACITY).find? fun i => (b.slots i).state == .free with
    | none => (b, .error EAGAIN)
    | some i =>
      if b.nextGeneration + 1 ≥ 2 ^ 64 then (b, .error EOVERFLOW)
      else
        match a.memory with
        | .error e => (b, .error e)
        | .ok () =>
          let b :=
            { b.setSlot i { state := .syn, generation := b.nextGeneration + 1 } with
              nextGeneration := b.nextGeneration + 1 }
          match b.child i b.nextGeneration with
          | (b, .error e) => (b, .error e)
          | (b, .ok view) =>
            match a.listened with
            | .error e => (b, .error e)
            | .ok () => (b, .ok (i, view))

/-- The ready slots, by the order in which they became so. -/
def Bank.nextReadySlot (b : Bank) : Option Index :=
  ((List.finRange CAPACITY).filter fun i => (b.slots i).state == .ready).argmin fun i =>
    (b.slots i).readyOrder

def Bank.accept (b : Bank) : Bank × Except Int View :=
  if !b.active then (b, .error EINVAL)
  else
    match b.nextReadySlot with
    | none => (b, .error EAGAIN)
    | some i =>
      match b.child i (b.slots i).generation with
      | (b, .error e) => (b, .error e)
      | (b, .ok view) =>
        ({ b.setSlot i { b.slots i with state := .accepted } with
            returned := b.returned ++ [(b.slots i).generation] }, .ok view)

def Bank.publishOwner (b : Bank) (accepted : View) (description : Nat) : Bank × Except Int Unit :=
  let slot := b.slots accepted.index
  if slot.state ≠ .accepted ∨ slot.generation ≠ accepted.generation ∨ slot.description ≠ 0 ∨
      description = 0 then (b, .error EINVAL)
  else (b.setSlot accepted.index { slot with description }, .ok ())

/-- `abort`, with the view it was given and what the connection's own calls answer. -/
def Bank.abort (b : Bank) (accepted endpoint : View) (sameArena : Bool)
    (reset : Except Int Unit) : Bank × Except Int Unit :=
  let slot := b.slots accepted.index
  if slot.state ≠ .accepted ∨ slot.generation ≠ accepted.generation ∨ !sameArena ∨
      endpoint ≠ accepted then (b, .error EBADF)
  else
    match b.acquire endpoint with
    | .error e => (b, .error e)
    | .ok () =>
      match reset with
      | .error e => (b, .error e)
      | .ok () => ((b.free accepted.index).forget accepted.index accepted.generation, .ok ())

def Bank.setBacklog (b : Bank) (backlog : Nat) : Bank × Except Int Unit :=
  if !b.active then (b, .error EINVAL)
  else
    ({ b with backlog := clamp backlog, largest := max b.largest (clamp backlog) }, .ok ())

/-- The loop of `close` over the slots that were pending.  An error ends it. -/
def Bank.closeLoop (polled : Index → Except Int Unit) :
    List (Index × Nat) → Bank → Bank × Except Int Unit
  | [], b => (b, .ok ())
  | (i, generation) :: rest, b =>
    match b.child i generation with
    | (b, .error e) => (b, .error e)
    | (b, .ok _) =>
      match polled i with
      | .error e => (b, .error e)
      | .ok () => closeLoop polled rest ((b.free i).forget i generation)

def Bank.close (b : Bank) (polled : Index → Except Int Unit) : Bank × Except Int Unit :=
  let b := { b with active := false }
  let records := ((List.finRange CAPACITY).filter fun i => (b.slots i).pending).map fun i =>
    (i, (b.slots i).generation)
  match Bank.closeLoop polled records b with
  | (b, .error e) => (b, .error e)
  | (b, .ok ()) => ({ b with closed := true }, .ok ())

/-- What the owners of accepted connections and their protocol states are found to be. -/
structure Owners where
  root : Nat
  present : List Nat
  polled : Index → Except Int Unit
  closedTcp : Index → Except Int Unit
  state : Index → TcpState
  reset : Index → Except Int Unit

/-- The loop of `reconcile_owners`. -/
def Bank.reconcileLoop (o : Owners) : List (Index × Slot) → Bank → Bank × Except Int Unit
  | [], b => (b, .ok ())
  | (i, slot) :: rest, b =>
    if slot.state ≠ .accepted ∨ slot.description = 0 ∨ o.present.contains slot.description then
      reconcileLoop o rest b
    else
      match b.child i slot.generation with
      | (b, .error e) => (b, .error e)
      | (b, .ok view) =>
        match o.closedTcp i with
        | .error e => (b, .error e)
        | .ok () =>
          if o.state i = .closed then
            match b.abort ⟨i, slot.generation⟩ view true (o.reset i) with
            | (b, .error e) => (b, .error e)
            | (b, .ok ()) => reconcileLoop o rest b
          else reconcileLoop o rest b

def Bank.reconcileOwners (b : Bank) (o : Owners) : Bank × Except Int Unit :=
  let closing := if !o.present.contains o.root && b.active then b.close o.polled else (b, .ok ())
  match closing with
  | (b, .error e) => (b, .error e)
  | (b, .ok ()) =>
    Bank.reconcileLoop o ((List.finRange CAPACITY).map fun i => (i, b.slots i)) b

/-! ## Polling -/

/-- What a packet is to the arena: it is not understood, it is no TCP, or it is a segment for some
connections, that may open one. -/
inductive Packet
  | invalid
  | other
  | segment (isFor : Index → Bool) (opens retained : Bool)

/-- What the arena's own state, memory and sockets answer during a poll. -/
structure Environment where
  root : Except Int Unit
  rootPoll : Except Int Unit
  allocation : Allocation
  child : Index → Except Int TcpState

/-- `finish_locked`, when the connection is found in this protocol state. -/
def Bank.finish (b : Bank) (env : Environment) (i : Index) (tcp : TcpState) :
    Bank × Except Int Unit :=
  let slot := b.slots i
  if (tcp = .established ∨ tcp = .closeWait) ∧ slot.state = .syn then
    match env.root with
    | .error e => (b, .error e)
    | .ok () =>
      if b.nextReady + 1 ≥ 2 ^ 64 then (b, .error EOVERFLOW)
      else
        ({ b.setSlot i { slot with state := .ready, readyOrder := b.nextReady + 1 } with
            nextReady := b.nextReady + 1
            readied := b.readied ++ [slot.generation] }, .ok ())
  else if (tcp = .closed ∨ tcp = .listen) ∧ slot.pending then
    ((b.free i).forget i slot.generation, .ok ())
  else (b, .ok ())

/-- A connection is polled, and its slot brought up to date. -/
def Bank.pollChild (b : Bank) (env : Environment) (i : Index) : Bank × Except Int Unit :=
  match env.child i with
  | .error e => (b, .error e)
  | .ok tcp => b.finish env i tcp

/-- The part of `poll_locked` for an incoming packet, which tells the slot it dealt with. -/
def Bank.receive (b : Bank) (env : Environment) (packet : Packet) :
    Bank × Except Int (Option Index) :=
  let toRoot : Bank × Except Int (Option Index) :=
    match env.rootPoll with
    | .error e => (b, .error e)
    | .ok () => (b, .ok none)
  match packet with
  | .invalid => (b, .ok none)
  | .other => toRoot
  | .segment isFor opens retained =>
    match (List.finRange CAPACITY).find? fun i => (b.slots i).live && isFor i with
    | some i =>
      match b.child i (b.slots i).generation with
      | (b, .error e) => (b, .error e)
      | (b, .ok _) =>
        match b.pollChild env i with
        | (b, .error e) => (b, .error e)
        | (b, .ok ()) => (b, .ok (some i))
    | none =>
      if opens && b.active then
        match env.root with
        | .error e => (b, .error e)
        | .ok () =>
          if !retained then (b, .ok none)
          else
            match b.allocate env.allocation with
            | (b, .error e) => if e = EAGAIN then (b, .ok none) else (b, .error e)
            | (b, .ok (i, _)) =>
              match b.pollChild env i with
              | (b, .error e) => (b, .error e)
              | (b, .ok ()) => (b, .ok (some i))
      else toRoot

/-- The loop of `poll_locked` over the slots that were live. -/
def Bank.pollLoop (env : Environment) : List (Index × Nat) → Bank → Bank × Except Int Unit
  | [], b => (b, .ok ())
  | (i, generation) :: rest, b =>
    match b.child i generation with
    | (b, .error e) => (b, .error e)
    | (b, .ok _) =>
      match b.pollChild env i with
      | (b, .error e) => (b, .error e)
      | (b, .ok ()) => pollLoop env rest b

def Bank.poll (b : Bank) (env : Environment) (incoming : Option Packet) : Bank × Except Int Unit :=
  let received : Bank × Except Int (Option Index) :=
    match incoming with
    | none => (b, .ok none)
    | some packet => b.receive env packet
  match received with
  | (b, .error e) => (b, .error e)
  | (b, .ok processed) =>
    let records := (List.finRange CAPACITY).filter fun i =>
      (b.slots i).live && processed != some i
    Bank.pollLoop env (records.map fun i => (i, (b.slots i).generation)) b

/-! ## The listeners of an arena -/

inductive Op
  | new (backlog : Nat) (listened : Except Int Unit)
  | accept
  | publishOwner (accepted : View) (description : Nat)
  | reconcileOwners (owners : Owners)
  | abort (accepted endpoint : View) (sameArena : Bool) (reset : Except Int Unit)
  | setBacklog (backlog : Nat)
  | close (polled : Index → Except Int Unit)
  | poll (env : Environment) (incoming : Option Packet)
  -- An operation of a connection itself, through a view of it.
  | through (view : View)

def Bank.apply (b : Bank) : Op → Bank × Except Int Unit
  | .new backlog listened => b.new backlog listened
  | .accept => let (b, result) := b.accept; (b, result.map fun _ => ())
  | .publishOwner accepted description => b.publishOwner accepted description
  | .reconcileOwners owners => b.reconcileOwners owners
  | .abort accepted endpoint sameArena reset => b.abort accepted endpoint sameArena reset
  | .setBacklog backlog => b.setBacklog backlog
  | .close polled => b.close polled
  | .poll env incoming => b.poll env incoming
  | .through view => (b, b.acquire view)

/-- The arena, and the views that the listener of each process keeps. -/
structure Sys where
  bank : Bank := {}
  caches : Nat → List View := fun _ => []

def Sys.step (s : Sys) (call : Nat × Op) : Sys :=
  let bank := (Bank.apply { s.bank with children := s.caches call.1 } call.2).1
  { bank, caches := fun k => if k = call.1 then bank.children else s.caches k }

end Kinakaze.Listener
