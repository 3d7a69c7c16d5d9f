import Mathlib.Algebra.Ring.Nat
import Mathlib.Algebra.Ring.Int.Defs
import Kinakaze.Library.Run

/-!
# Pending signals

`kinakaze-vfs/src/signal.rs`: the bits of the pending signals, of the process and of each thread,
and the queue with the timers that expired and the values that were sent. A call that takes the
lock more than once is as many steps here, and the steps of different threads come in any order.
-/

namespace Kinakaze.Signal

open Library

def SIGKILL : Nat := 9
def SIGCHLD : Nat := 17
def SIGCONT : Nat := 18
def SIGSTOP : Nat := 19
def SIGURG : Nat := 23
def SIGWINCH : Nat := 28

def SA_NOCLDSTOP : BitVec 32 := 1
def SA_SIGINFO : BitVec 32 := 4
def SA_ONSTACK : BitVec 32 := 0x08000000
def SA_RESETHAND : BitVec 32 := 0x80000000

def NSIG : Nat := 65

/-- `bit`: the number is that of a signal. -/
def valid (signal : Nat) : Bool := 0 < signal && signal < NSIG

def defaultIsIgnore (signal : Nat) : Bool :=
  signal == SIGCHLD || signal == SIGCONT || signal == SIGWINCH || signal == SIGURG

def uncatchable (signal : Nat) : Bool := signal == SIGKILL || signal == SIGSTOP

def saturatingAdd (a b : Int) : Int := max (-2147483648) (min 2147483647 (a + b))

/-- The number is an `i32`. -/
def InRange (a : Int) : Prop := -2147483648 ≤ a ∧ a ≤ 2147483647

theorem saturatingAdd_eq {a b : Int} (h : InRange (a + b)) : saturatingAdd a b = a + b := by
  unfold saturatingAdd InRange at *
  omega

inductive Disposition where
  | default
  | ignore
  | handle
  deriving DecidableEq

structure Action where
  disposition : Disposition := .default
  flags : BitVec 32 := 0

/-- `job::queued::Record`: a value that was sent. -/
structure Record where
  id : Nat
  signal : Nat
  code : Int
  value : Nat
  deriving DecidableEq

structure TimerSignal where
  target : Option Nat
  signal : Nat
  id : Int
  value : Nat
  overrun : Int
  queued : Option Record
  deriving DecidableEq

/-- What `deliver_pending` does with a signal that it took. -/
inductive Decision where
  | putBack
  | handle (reset : Bool)
  deriving DecidableEq

/-- A signal that a thread has taken and not yet dealt with. -/
structure Flight where
  thread : Nat
  target : Option Nat
  signal : Nat
  timer : Option TimerSignal
  decision : Option Decision := none
  deriving DecidableEq

/-- The second half is what has happened, which no call reads. -/
structure State where
  actions : Nat → Action := fun _ => {}
  /-- `PENDING` for no target, `thread_pending` for a thread. -/
  bit : Option Nat → Nat → Bool := fun _ _ => false
  /-- `timer_pending`. -/
  queue : List TimerSignal := []
  /-- The signals that calls of `raise_signal` are about to set. -/
  raising : List Nat := []
  /-- The signal that a thread in `deliver_pending` is about to take. -/
  chosen : Nat → Option Nat := fun _ => none
  flights : List Flight := []
  raised : Option Nat → Nat → Bool := fun _ _ => false
  /-- The values of each signal that were queued, taken, delivered and discarded. -/
  accepted : Nat → List Record := fun _ => []
  gone : Nat → List Record := fun _ => []
  delivered : Nat → List Record := fun _ => []
  discarded : Nat → List Record := fun _ => []
  /-- The expirations of each timer: queued, delivered as a signal or as an overrun, discarded. -/
  expired : Int → Int := fun _ => 0
  deliveries : Int → Int := fun _ => 0
  overruns : Int → Int := fun _ => 0
  dropped : Int → Int := fun _ => 0

/-- `f` with the value of `a` changed. -/
def change {α β : Type} [DecidableEq α] (f : α → β) (a : α) (g : β → β) : α → β :=
  Function.update f a (g (f a))

/-- The bit of one target and one signal. -/
def setBit (bits : Option Nat → Nat → Bool) (target : Option Nat) (signal : Nat) (value : Bool) :
    Option Nat → Nat → Bool :=
  fun t n => if t = target ∧ n = signal then value else bits t n

/-- The bits of a signal are cleared for every target. -/
def clearSignal (bits : Option Nat → Nat → Bool) (signal : Nat) : Option Nat → Nat → Bool :=
  fun t n => if n = signal then false else bits t n

/-- `timer.signal == signal && timer.target == target`. -/
def TimerSignal.isFor (target : Option Nat) (signal : Nat) (t : TimerSignal) : Bool :=
  t.signal == signal && t.target == target

/-- `pending.queued.is_none() && pending.id == timer_id`. -/
def TimerSignal.isTimer (id : Int) (t : TimerSignal) : Bool := t.queued.isNone && t.id == id

/-- The expirations of a timer that an entry of the queue stands for. -/
def TimerSignal.expirations (id : Int) (t : TimerSignal) : Int :=
  if t.isTimer id then t.overrun + 1 else 0

/-- The value of a signal that an entry of the queue has. -/
def TimerSignal.recordOf (signal : Nat) (t : TimerSignal) : Option Record :=
  t.queued.filter (·.signal == signal)

/-- The expirations of an entry are added to those of the first entry of the same timer. -/
def merge (id : Int) (overrun : Int) : List TimerSignal → List TimerSignal
  | [] => []
  | t :: rest =>
    if t.isTimer id then
      { t with overrun := saturatingAdd t.overrun (saturatingAdd overrun 1) } :: rest
    else t :: merge id overrun rest

namespace State

/-- `queue_value_signal`. -/
def queueValue (s : State) (record : Record) : State :=
  if !valid record.signal then s
  else
    let action := s.actions record.signal
    if action.disposition = .ignore ∨ (record.signal = SIGCHLD ∧
        (record.code = 5 ∨ record.code = 6) ∧ action.flags &&& SA_NOCLDSTOP ≠ 0) then s
    else { s with
      queue := s.queue ++ [⟨none, record.signal, 0, record.value, 0, some record⟩]
      bit := setBit s.bit none record.signal true
      accepted := change s.accepted record.signal (· ++ [record]) }

/-- `queue_timer_signal`; `alive` is whether the thread exists. -/
def queueTimer (s : State) (target : Option Nat) (signal : Nat) (id : Int) (value : Nat)
    (overrun : Int) (alive : Bool) : State :=
  if !valid signal || (target.isSome && !alive) then s
  else if (s.actions signal).disposition = .ignore then s
  else { s with
    queue :=
      if s.queue.any (·.isTimer id) then merge id overrun s.queue
      else s.queue ++ [⟨target, signal, id, value, overrun, none⟩]
    bit := setBit s.bit target signal true
    expired := change s.expired id (· + (overrun + 1)) }

/-- `raise_thread_signal`. -/
def raiseThread (s : State) (thread signal : Nat) (alive : Bool) : State :=
  if !valid signal || !alive then s
  else
    let action := s.actions signal
    if action.disposition = .ignore ∨ (action.disposition = .default ∧ defaultIsIgnore signal) then s
    else { s with
      bit := setBit s.bit (some thread) signal true
      raised := setBit s.raised (some thread) signal true }

/-- The check of `raise_signal`. -/
def raiseCheck (s : State) (signal : Nat) : State :=
  if !valid signal || (s.actions signal).disposition = .ignore then s
  else { s with raising := signal :: s.raising }

/-- `PENDING.fetch_or` in `raise_signal`, which no lock protects. -/
def raiseSet (s : State) (signal : Nat) : State :=
  if signal ∈ s.raising then
    { s with
      raising := s.raising.erase signal
      bit := setBit s.bit none signal true
      raised := setBit s.raised none signal true }
  else s

/-- `sigaction` with an action. -/
def sigaction (s : State) (signal : Nat) (action : Action) : State :=
  if !valid signal || uncatchable signal then s
  else
    let s := { s with actions := change s.actions signal fun _ => action }
    if action.disposition = .ignore ∨ (action.disposition = .default ∧ defaultIsIgnore signal) then
      let removed := s.queue.filter (·.signal == signal)
      { s with
        bit := clearSignal s.bit signal
        raised := clearSignal s.raised signal
        queue := s.queue.filter (·.signal != signal)
        gone := change s.gone signal (· ++ removed.filterMap (·.recordOf signal))
        discarded := change s.discarded signal (· ++ removed.filterMap (·.recordOf signal))
        dropped := fun id => s.dropped id + (removed.map (·.expirations id)).sum }
    else s

/-- One signal is taken under the lock: its bit, and the first entry of the queue for it. The bit
is set again when there is another entry. -/
def accept (s : State) (thread signal : Nat) : State :=
  let target := if s.bit (some thread) signal then some thread else none
  if !s.bit target signal then s
  else
    let timer := s.queue.find? (·.isFor target signal)
    let queue := s.queue.eraseP (·.isFor target signal)
    { s with
      bit := setBit s.bit target signal (queue.any (·.isFor target signal))
      queue := queue
      flights := ⟨thread, target, signal, timer, none⟩ :: s.flights
      raised := setBit s.raised target signal false
      gone := change s.gone signal (· ++ (timer.bind (·.recordOf signal)).toList) }

/-- `fill`: the handler, or the caller of `take_pending`, gets the signal. -/
def fill (s : State) (f : Flight) : State :=
  let s := { s with flights := s.flights.erase f }
  match f.timer with
  | none => s
  | some t =>
    match t.queued with
    | some record => { s with delivered := change s.delivered record.signal (· ++ [record]) }
    | none => { s with
        deliveries := change s.deliveries t.id (· + 1)
        overruns := change s.overruns t.id (· + t.overrun) }

/-- A signal that is ignored, or whose default is taken. -/
def discard (s : State) (f : Flight) : State :=
  let s := { s with flights := s.flights.erase f }
  match f.timer with
  | none => s
  | some t =>
    match t.queued with
    | some record => { s with discarded := change s.discarded record.signal (· ++ [record]) }
    | none => { s with dropped := change s.dropped t.id (· + (t.overrun + 1)) }

/-- The signal stays pending until its thread reaches a place where the handler can run. -/
def putBack (s : State) (f : Flight) : State :=
  let s := { s with
    flights := s.flights.erase f
    bit := setBit s.bit f.target f.signal true }
  match f.timer with
  | none => { s with raised := setBit s.raised f.target f.signal true }
  | some t =>
    match t.queued with
    | some record => { s with
        queue := t :: s.queue
        gone := change s.gone record.signal (·.dropLast) }
    | none => { s with
        queue := if s.queue.any (·.isTimer t.id) then merge t.id t.overrun s.queue
          else t :: s.queue }

/-- The lowest signal that is pending and that `mask` has. -/
def ready (s : State) (thread : Nat) (mask : Nat → Bool) : Option Nat :=
  (List.range NSIG).find? fun n =>
    valid n && (s.bit none n || s.bit (some thread) n) && mask n

def flightOf (s : State) (thread : Nat) : Option Flight := s.flights.find? (·.thread == thread)

def takePending (s : State) (thread : Nat) (mask : Nat → Bool) : State :=
  match s.flightOf thread, s.ready thread mask with
  | none, some signal =>
    let s := s.accept thread signal
    match s.flightOf thread with
    | none => s
    | some f => s.fill f
  | _, _ => s

/-- `deliver_pending` reads the bits and chooses a signal that is not blocked. -/
def choose (s : State) (thread : Nat) (blocked : Nat → Bool) : State :=
  { s with chosen := Function.update s.chosen thread (s.ready thread fun n => !blocked n) }

/-- It takes the signal, which may be gone by now. -/
def claim (s : State) (thread : Nat) : State :=
  match s.flightOf thread, s.chosen thread with
  | none, some signal => { s with chosen := Function.update s.chosen thread none }.accept thread signal
  | _, _ => s

/-- It reads the action; `active` is whether the thread is at a raw syscall. -/
def decide (s : State) (thread : Nat) (active : Bool) : State :=
  match s.flightOf thread with
  | none => s
  | some f =>
    if f.decision.isSome then s
    else
      let action := s.actions f.signal
      let decided := fun d : Decision =>
        { s with flights := { f with decision := some d } :: s.flights.erase f }
      if action.disposition = .handle then
        if action.flags &&& (SA_SIGINFO ||| SA_ONSTACK) = SA_SIGINFO ||| SA_ONSTACK ∧ !active then
          decided .putBack
        else decided (.handle (action.flags &&& SA_RESETHAND != 0))
      else s.discard f

/-- It returns the signal or runs the handler. -/
def finish (s : State) (thread : Nat) : State :=
  match s.flightOf thread with
  | none => s
  | some f =>
    match f.decision with
    | none => s
    | some .putBack => s.putBack f
    | some (.handle reset) =>
      let s := if reset then s.sigaction f.signal {} else s
      s.fill f

end State

/-- One step of one thread. -/
inductive Call where
  | raiseCheck (signal : Nat)
  | raiseSet (signal : Nat)
  | raiseThread (thread signal : Nat) (alive : Bool)
  | queueValue (record : Record)
  | queueTimer (target : Option Nat) (signal : Nat) (id : Int) (value : Nat) (overrun : Int)
      (alive : Bool)
  | sigaction (signal : Nat) (action : Action)
  | takePending (thread : Nat) (mask : Nat → Bool)
  | choose (thread : Nat) (blocked : Nat → Bool)
  | claim (thread : Nat)
  | decide (thread : Nat) (active : Bool)
  | finish (thread : Nat)

def State.step (s : State) : Call → State
  | .raiseCheck signal => s.raiseCheck signal
  | .raiseSet signal => s.raiseSet signal
  | .raiseThread thread signal alive => s.raiseThread thread signal alive
  | .queueValue record => s.queueValue record
  | .queueTimer target signal id value overrun alive =>
    s.queueTimer target signal id value overrun alive
  | .sigaction signal action => s.sigaction signal action
  | .takePending thread mask => s.takePending thread mask
  | .choose thread blocked => s.choose thread blocked
  | .claim thread => s.claim thread
  | .decide thread active => s.decide thread active
  | .finish thread => s.finish thread

end Kinakaze.Signal
