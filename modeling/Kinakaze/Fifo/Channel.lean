import Kinakaze.Library.Ring

/-!
# Reads and writes on a FIFO channel

A FIFO is one byte queue in a mapping that several processes share.  A call
takes the inode's lock for a step at a time: a read returns or waits, a write
copies what fits and may release the lock and go on later.  A `Turn` is what a
locked step finds and meets outside the queue: the endpoints, its own row, and
the results of the system calls that lock, notify and wait.
-/

namespace Kinakaze.Fifo

open Library

abbrev Byte := BitVec 8

def CAPACITY : Nat := 65536
def PIPE_BUF : Nat := 4096

def EIO : Int := 5
def EBADF : Int := 9
def EAGAIN : Int := 11
def EPIPE : Int := 32

/-- The endpoint's own row, as the step finds it. -/
structure Endpoint where
  read : Bool
  write : Bool
  nonblock : Bool

/-- What one locked step meets outside the queue; the results of system calls
are `none` for success or the error. -/
structure Turn where
  lock : Option Int
  row : Option Endpoint
  readers : Nat
  writers : Nat
  changed : Option Int
  register : Option Int
  wait : Option Int

/-- How a step of a call ends. -/
inductive Outcome (α : Type) where
  | returned (value : α)
  | failed (errno : Int)
  | waiting

/-- Register for the next change and wait for it. -/
def registerAndWait {α : Type} (turn : Turn) (failed : Int → Outcome α) : Outcome α :=
  match turn.register with
  | some error => .failed error
  | none =>
    match turn.wait with
    | some error => failed error
    | none => .waiting

/-- One locked step of `Context::read` into a buffer of `size` bytes. -/
def readStep (size : Nat) (turn : Turn) (queue : RingBuffer Byte) :
    RingBuffer Byte × Outcome (List Byte) :=
  match turn.lock, turn.row with
  | some error, _ => (queue, .failed error)
  | none, none => (queue, .failed EBADF)
  | none, some row =>
    if row.read = false then (queue, .failed EBADF)
    else if size = 0 then (queue, .returned [])
    else if queue.length ≠ 0 then
      let (bytes, queue) := queue.pop CAPACITY (min size queue.length)
      match turn.changed with
      | some error => (queue, .failed error)
      | none => (queue, .returned bytes)
    else if turn.writers = 0 then (queue, .returned [])
    else if row.nonblock then (queue, .failed EAGAIN)
    else (queue, registerAndWait turn .failed)

/-- The end of a write that cannot go on: the bytes accepted so far, or the error. -/
def finishShort (written : Nat) (error : Int) : Outcome Nat :=
  if written ≠ 0 then .returned written else .failed error

/-- Whether a step of a write may copy bytes now: any room does for a long
buffer, a short one goes in whole. -/
def mayCopy (buffer : List Byte) (written : Nat) (queue : RingBuffer Byte) : Prop :=
  CAPACITY - queue.length ≠ 0 ∧
    (PIPE_BUF < buffer.length ∨ buffer.length - written ≤ CAPACITY - queue.length)

instance (buffer : List Byte) (written : Nat) (queue : RingBuffer Byte) :
    Decidable (mayCopy buffer written queue) := inferInstanceAs (Decidable (_ ∧ _))

/-- The bytes a step of a write copies. -/
def copied (buffer : List Byte) (written : Nat) (queue : RingBuffer Byte) : List Byte :=
  (buffer.drop written).take (CAPACITY - queue.length)

/-- What a step of a write does: the queue, the bytes it accepted, how it ends. -/
structure WriteStep where
  queue : RingBuffer Byte
  accepted : List Byte
  outcome : Outcome Nat

/-- The copying step: commit, notify, and return when done or not blocking. -/
def copyStep (buffer : List Byte) (written : Nat) (turn : Turn) (nonblock : Bool)
    (queue : RingBuffer Byte) : WriteStep :=
  let bytes := copied buffer written queue
  { queue := queue.push CAPACITY bytes
    accepted := bytes
    outcome :=
      match turn.changed with
      | some error => .failed error
      | none =>
        if written + bytes.length = buffer.length ∨ nonblock then
          .returned (written + bytes.length)
        else .waiting }

/-- One locked step of `Context::write_inner`, of which `written` bytes are in.
A step that copies and goes on takes the lock again, like one that has waited. -/
def writeStep (buffer : List Byte) (written : Nat) (turn : Turn) (queue : RingBuffer Byte) :
    WriteStep :=
  match turn.lock, turn.row with
  | some error, _ => ⟨queue, [], finishShort written error⟩
  | none, none => ⟨queue, [], .failed EBADF⟩
  | none, some row =>
    if row.write = false then ⟨queue, [], .failed EBADF⟩
    else if buffer = [] then ⟨queue, [], .returned 0⟩
    else if turn.readers = 0 then ⟨queue, [], finishShort written EPIPE⟩
    else if mayCopy buffer written queue then copyStep buffer written turn row.nonblock queue
    else if row.nonblock then ⟨queue, [], finishShort written EAGAIN⟩
    else ⟨queue, [], registerAndWait turn (finishShort written)⟩

/-! ## Any number of calls -/

/-- A write call in progress or ended, with the bytes it has had accepted and in
how many steps. -/
structure Call where
  buffer : List Byte
  written : Nat
  taken : List Byte
  pieces : Nat
  result : Option (Except Int Nat)

/-- The queue, the calls, and the history of bytes accepted and returned. -/
structure System where
  queue : RingBuffer Byte
  calls : Nat → Option Call
  accepted : List Byte
  returned : List Byte

/-- A new channel. -/
def System.initial : System where
  queue := { slots := fun _ => 0, head := 0, length := 0 }
  calls _ := none
  accepted := []
  returned := []

inductive Event where
  /-- A step of a read call with a buffer of this size. -/
  | read (size : Nat) (turn : Turn)
  /-- A write call begins. -/
  | begin (id : Nat) (buffer : List Byte)
  /-- A step of a write call that has not ended. -/
  | write (id : Nat) (turn : Turn)

/-- What a read has handed over. -/
def Outcome.bytes : Outcome (List Byte) → List Byte
  | .returned bytes => bytes
  | _ => []

def Outcome.result : Outcome Nat → Option (Except Int Nat)
  | .returned count => some (.ok count)
  | .failed errno => some (.error errno)
  | .waiting => none

/-- The call after a step that accepted `bytes`. -/
def Call.advance (call : Call) (bytes : List Byte) (outcome : Outcome Nat) : Call :=
  { call with
    written := call.written + bytes.length
    taken := call.taken ++ bytes
    pieces := if bytes = [] then call.pieces else call.pieces + 1
    result := outcome.result }

def System.step (s : System) : Event → System
  | .read size turn =>
    let (queue, outcome) := readStep size turn s.queue
    { s with queue, returned := s.returned ++ outcome.bytes }
  | .begin id buffer =>
    match s.calls id with
    | some _ => s
    | none => { s with calls := Function.update s.calls id (some ⟨buffer, 0, [], 0, none⟩) }
  | .write id turn =>
    match s.calls id with
    | none => s
    | some call =>
      match call.result with
      | some _ => s
      | none =>
        let done := writeStep call.buffer call.written turn s.queue
        { s with
          queue := done.queue
          calls := Function.update s.calls id (some (call.advance done.accepted done.outcome))
          accepted := s.accepted ++ done.accepted }

end Kinakaze.Fifo
