import Mathlib.Algebra.Ring.Nat
import Mathlib.Algebra.Ring.Int.Defs
import Kinakaze.Library.StatefulCall

/-!
# Timer descriptors

The shared state of a timerfd and the calls on it.  What the host answers in a
call comes with the call.  A call whose arithmetic on `i64` overflows has no
result (`none`).
-/

namespace Kinakaze.Timer

open Library

def EAGAIN : Nat := 11
def EINVAL : Nat := 22
def ECANCELED : Nat := 125

def I64_MIN : Int := -2 ^ 63
def I64_MAX : Int := 2 ^ 63 - 1
def U64_MAX : Nat := 2 ^ 64 - 1

/-- A result that saturates in `i64`. -/
def saturate (n : Int) : Int := max I64_MIN (min n I64_MAX)

/-- `checked_sub` on `i64`. -/
def checkedSub (a b : Int) : Option Int :=
  if I64_MIN ≤ a - b ∧ a - b ≤ I64_MAX then some (a - b) else none

structure Timespec where
  sec : Int
  nsec : Int

structure Itimerspec where
  interval : Timespec
  value : Timespec

def Timespec.nanos (t : Timespec) : Except Nat Int :=
  if t.sec < 0 ∨ ¬(0 ≤ t.nsec ∧ t.nsec < 1000000000) then .error EINVAL
  else .ok (saturate (saturate (t.sec * 1000000000) + t.nsec))

def Timespec.fromNanos (n : Int) : Timespec := ⟨n.tdiv 1000000000, n.tmod 1000000000⟩

structure State where
  clock : Nat
  cancelOnSet : Bool
  /-- 0 when the timer is not armed. -/
  deadline : Int
  interval : Int
  ticks : Nat
  clockGeneration : Nat
  deriving DecidableEq

/-- The state that `create` writes. -/
def create (clock : Nat) : State := ⟨clock, false, 0, 0, 0, 0⟩

/-- What the host answers in a call: the clock, the generation of clock changes when it is asked
for the first and for the second time, and the offset of the time namespace. -/
structure Host where
  now : Except Nat Int
  generation : Except Nat Nat
  nextGeneration : Except Nat Nat
  offset : Except Nat Int

inductive Answer
  | setting (old : Itimerspec)
  | ready (readable : Bool)
  | count (ticks : Nat)
  /-- `read` waits, and looks again later. -/
  | waits

/-- The number of expirations that a refresh finds. -/
def State.missed (s : State) (now : Int) : Option Nat :=
  if s.interval = 0 then some 1
  else (checkedSub now s.deadline).map fun late => (late.tdiv s.interval).toNat + 1

def refresh (s : State) (now : Int) : Option State :=
  if s.deadline ≠ 0 ∧ s.deadline ≤ now then
    (s.missed now).map fun (count : Nat) =>
      { s with
        ticks := min (s.ticks + count) U64_MAX
        deadline := if s.interval = 0 then 0
          else min (s.deadline + count * s.interval) I64_MAX }
  else some s

def remaining (s : State) (now : Int) : Option Itimerspec :=
  (checkedSub s.deadline now).map fun left =>
    ⟨.fromNanos s.interval, .fromNanos (max left 0)⟩

def canceled (s : State) (generation : Except Nat Nat) : Except Nat Bool :=
  if s.cancelOnSet then generation.map (· ≠ s.clockGeneration) else .ok false

/-- What `settime` knows before it refreshes the timer. -/
structure Rearm where
  now : Int
  interval : Int
  deadline : Int
  cancelOnSet : Bool
  generation : Nat
  canceled : Bool

/-- The deadline on the host's clock. -/
def hostDeadline (absolute : Bool) (value now : Int) (offset : Except Nat Int) : Except Nat Int :=
  if value = 0 then pure 0
  else if absolute then do
    let offset ← offset
    match checkedSub value offset with
    | some deadline => pure (max deadline 1)
    | none => throw EINVAL
  else pure (saturate (now + value))

/-- The generation that a timer is armed for. -/
def subscription (cancelOnSet : Bool) (host : Host) : Except Nat Nat :=
  if cancelOnSet then host.nextGeneration else pure 0

def rearm (s : State) (flags : BitVec 32) (spec : Itimerspec) (host : Host) : Except Nat Rearm := do
  let interval ← spec.interval.nanos
  let value ← spec.value.nanos
  let canceled ← canceled s host.generation
  let cancelOnSet : Bool := s.clock = 0 ∧ flags &&& 3 = 3
  let generation ← subscription cancelOnSet host
  let now ← host.now
  let deadline ← hostDeadline (flags &&& 1 ≠ 0) value now host.offset
  pure { now, interval, deadline, cancelOnSet, generation, canceled }

def settime (s : State) (flags : BitVec 32) (spec : Itimerspec) (host : Host) :
    Option (State × Except Nat Answer) :=
  if flags &&& ~~~3 ≠ 0 then some (s, .error EINVAL)
  else
    match rearm s flags spec host with
    | .error e => some (s, .error e)
    | .ok arm => do
      let s ← refresh s arm.now
      let old ← remaining s arm.now
      -- The new timer is installed even when a cancellation is reported.
      some ({ s with
          interval := arm.interval
          deadline := arm.deadline
          ticks := 0
          cancelOnSet := arm.cancelOnSet
          clockGeneration := arm.generation },
        if arm.canceled then .error ECANCELED else .ok (.setting old))

/-- The clock in `gettime`, which also asks for the generation of clock changes. -/
def State.observe (s : State) (host : Host) : Except Nat Int :=
  if s.cancelOnSet then host.generation >>= fun _ => host.now else host.now

def gettime (s : State) (host : Host) : Option (State × Except Nat Answer) :=
  match s.observe host with
  | .error e => some (s, .error e)
  | .ok now => do
    let s ← refresh s now
    let left ← remaining s now
    some (s, .ok (.setting left))

def poll (s : State) (host : Host) : Option (State × Except Nat Answer) :=
  match host.now with
  | .error e => some (s, .error e)
  | .ok now => do
    let s ← refresh s now
    some (s, if s.ticks ≠ 0 then .ok (.ready true) else (canceled s host.generation).map .ready)

/-- One turn of the loop of `read`. -/
def read (s : State) (nonblock : Bool) (host : Host) : Option (State × Except Nat Answer) :=
  match canceled s host.generation with
  | .error e => some (s, .error e)
  | .ok true =>
    match host.nextGeneration with
    | .error e => some (s, .error e)
    | .ok generation =>
      some ({ s with clockGeneration := generation, ticks := 0 }, .error ECANCELED)
  | .ok false =>
    match host.now with
    | .error e => some (s, .error e)
    | .ok now => do
      let s ← refresh s now
      if s.ticks ≠ 0 then some ({ s with ticks := 0 }, .ok (.count s.ticks))
      else if nonblock then some (s, .error EAGAIN)
      else some (s, .ok .waits)

inductive Call
  | settime (flags : BitVec 32) (spec : Itimerspec)
  | gettime
  | poll
  | read (nonblock : Bool)

def State.call (s : State) (host : Host) : Call → Option (State × Except Nat Answer)
  | .settime flags spec => Timer.settime s flags spec host
  | .gettime => Timer.gettime s host
  | .poll => Timer.poll s host
  | .read nonblock => Timer.read s nonblock host

end Kinakaze.Timer
