import Mathlib.Algebra.Ring.Nat
import Mathlib.Algebra.Ring.Int.Defs
import Mathlib.Data.List.Perm.Basic

/-!
# A ring of submissions and completions

An accepted entry becomes a native request, or a completion at once, or a cancellation, and all of
them wait for the submission.  A native request is kept under its cookie until the native queue
hands its completion out.

What memory, files and the native queue answer is an input.  The native queue returns a completion
only for an entry that was submitted to it, and each once.
-/

namespace Kinakaze.IoRing

def EAGAIN : Int := 11
def ENOMEM : Int := 12
def EFAULT : Int := 14
def EBUSY : Int := 16
def EINVAL : Int := 22
def ENOSYS : Int := 38
def EOPNOTSUPP : Int := 95
def ENOENT : Int := 2

def IORING_OP_NOP : Nat := 0
def IORING_OP_READV : Nat := 1
def IORING_OP_WRITEV : Nat := 2
def IORING_OP_FSYNC : Nat := 3
def IORING_OP_READ_FIXED : Nat := 4
def IORING_OP_WRITE_FIXED : Nat := 5
def IORING_OP_ASYNC_CANCEL : Nat := 14
def IORING_OP_READ : Nat := 22
def IORING_OP_WRITE : Nat := 23

/-- The fields of an entry that the ring itself reads. -/
structure SubmissionEntry where
  opcode : Nat
  flags : Nat
  ioprio : Nat
  address : Nat
  op_flags : BitVec 32
  user_data : Nat
  buffer_index : Nat
  personality : Nat

/-- `serial` is the number of the accepted entry. -/
structure CompletionEntry where
  serial : Nat
  user_data : Nat
  result : Int
  flags : Nat

structure Request where
  serial : Nat
  file : Nat
  buffer : Nat
  length : Nat
  read : Bool
  flush : Bool
  user_data : Nat
  submitted : Bool
  deriving DecidableEq

structure Cancellation where
  serial : Nat
  target : Nat
  user_data : Nat
  flags : BitVec 32

/-- What the native queue has of a request. -/
structure Native where
  cookie : Nat
  file : Nat
  buffer : Nat
  submitted : Bool
  deriving DecidableEq

structure State where
  pending : Nat := 0
  capacity : Nat
  requests : List (Nat × Request) := []
  nextCookie : Nat := 1
  localPending : List CompletionEntry := []
  cancellations : List Cancellation := []
  completions : List CompletionEntry := []
  -- The native queue, the accepted entries, the completions that were handed over, and whether the
  -- process aborted.
  native : List Native := []
  accepted : List (Nat × Nat) := []
  delivered : List CompletionEntry := []
  aborted : Bool := false

/-! ## Pushing -/

/-- The loop that looks for a cookie of no request. -/
def freeCookie (used : Nat → Bool) (first : Nat) : Nat → Nat → Option Nat
  | 0, _ => none
  | fuel + 1, cookie =>
    if used cookie then
      let next := (cookie + 1) % 2 ^ 64
      if next = first then none else freeCookie used first fuel next
    else some cookie

/-- `queue_native`, with what the native queue answers to the entry that is built. -/
def State.queueNative (s : State) (request : Request) (build : Except Int Unit) :
    State × Except Int Unit :=
  if request.length = 0 ∧ ¬ request.flush then
    ({ s with
        localPending := s.localPending ++ [⟨request.serial, request.user_data, 0, 0⟩] }, .ok ())
  else
    match freeCookie (fun cookie => (s.requests.lookup cookie).isSome) s.nextCookie (2 ^ 64)
        s.nextCookie with
    | none => (s, .error EBUSY)
    | some cookie =>
      let s := { s with nextCookie := (cookie + 1) % 2 ^ 64 }
      match build with
      | .error e => (s, .error e)
      | .ok () =>
        ({ s with
            native := s.native ++ [⟨cookie, request.file, request.buffer, false⟩]
            requests := s.requests ++ [(cookie, request)] }, .ok ())

/-- `native_opcode` is some. -/
def isNative (opcode : Nat) : Bool :=
  opcode == IORING_OP_READ || opcode == IORING_OP_READV || opcode == IORING_OP_WRITE ||
    opcode == IORING_OP_WRITEV || opcode == IORING_OP_FSYNC

/-- What `prepare` makes of an entry: a file, a buffer with a length, and the kind of request. -/
structure Prepared where
  file : Nat
  buffer : Nat
  length : Nat
  read : Bool
  flush : Bool

/-- The answers of memory, of the native queue and of `prepare` to one push. -/
structure PushAnswers where
  reserved : Bool
  reservedCancellation : Bool
  supported : Bool
  prepared : Except Int Prepared
  build : Except Int Unit

def prepareEntry (entry : SubmissionEntry) (serial : Nat) (answers : PushAnswers) :
    Except Int (Option Request) :=
  if entry.flags ≠ 0 ∨ entry.ioprio ≠ 0 ∨
      (entry.op_flags ≠ 0 ∧ ¬ (entry.opcode = IORING_OP_FSYNC ∧ entry.op_flags = 1)) ∨
      entry.buffer_index ≠ 0 ∨ entry.personality ≠ 0 then .error EOPNOTSUPP
  else if entry.opcode = IORING_OP_NOP then .ok none
  else if isNative entry.opcode then
    if !answers.supported then .error EOPNOTSUPP
    else
      answers.prepared.map fun p =>
        some ⟨serial, p.file, p.buffer, p.length, p.read, p.flush, entry.user_data, false⟩
  else if entry.opcode = IORING_OP_READ_FIXED ∨ entry.opcode = IORING_OP_WRITE_FIXED then
    .error EOPNOTSUPP
  else .error ENOSYS

/-- The entry is accepted, with a completion of its own or without. -/
def State.accept (s : State) (entry : SubmissionEntry) (result : Option Int) : State :=
  { s with
    localPending := s.localPending ++
      result.toList.map fun result => ⟨s.accepted.length, entry.user_data, result, 0⟩
    pending := s.pending + 1
    accepted := s.accepted ++ [(s.accepted.length, entry.user_data)] }

def State.push (s : State) (entry : SubmissionEntry) (answers : PushAnswers) :
    State × Except Int Unit :=
  if s.pending ≥ s.capacity then (s, .error EBUSY)
  else if !answers.reserved then (s, .error ENOMEM)
  else if entry.opcode = IORING_OP_ASYNC_CANCEL ∧ entry.flags = 0 ∧ entry.op_flags &&& ~~~1 = 0 then
    if !answers.reservedCancellation then (s, .error ENOMEM)
    else
      ({ s with
          cancellations := s.cancellations ++
            [⟨s.accepted.length, entry.address, entry.user_data, entry.op_flags⟩]
          pending := s.pending + 1
          accepted := s.accepted ++ [(s.accepted.length, entry.user_data)] }, .ok ())
  else
    match prepareEntry entry s.accepted.length answers with
    | .ok (some request) =>
      match s.queueNative request answers.build with
      | (s, .ok ()) => (s.accept entry none, .ok ())
      | (s, .error e) => (s.accept entry (some (-e)), .ok ())
    | .ok none => (s.accept entry (some 0), .ok ())
    | .error e => (s.accept entry (some (-e)), .ok ())

/-! ## Submitting and harvesting -/

/-- One step of `harvest`: memory fails, the native queue fails, or it returns the completion of
one of the requests in flight, which then has this result. -/
inductive Pop
  | outOfMemory
  | failed (e : Int)
  | completed (pick : Nat) (result : Int)

def State.inFlight (s : State) : List Native := s.native.filter fun native => native.submitted

/-- The loop of `harvest`, which ends when the native queue is empty. -/
def State.harvest (s : State) : List Pop → State × Except Int Unit
  | [] => (s, .ok ())
  | .outOfMemory :: _ => (s, .error ENOMEM)
  | .failed e :: _ => (s, .error e)
  | .completed pick result :: pops =>
    match s.inFlight[pick]? with
    | none => (s, .ok ())
    | some native =>
      match s.requests.lookup native.cookie with
      | none => ({ s with aborted := true }, .error 0)
      | some request =>
        if !request.submitted then ({ s with aborted := true }, .error 0)
        else
          State.harvest
            { s with
              native := s.native.erase native
              requests := s.requests.erase (native.cookie, request)
              completions := s.completions ++ [⟨request.serial, request.user_data, result, 0⟩] }
            pops

/-- How many requests a cancellation cancels, when the cookies are these that can be. -/
def Cancellation.canceled (c : Cancellation) (requests : List (Nat × Request))
    (cancels : Nat → Bool) : Nat :=
  let targets := requests.filter fun r => r.2.user_data == c.target
  let targets := if c.flags = 0 then targets.take 1 else targets
  (targets.filter fun r => cancels r.1).length

def Cancellation.complete (c : Cancellation) (requests : List (Nat × Request))
    (cancels : Nat → Bool) : CompletionEntry :=
  let canceled := c.canceled requests cancels
  ⟨c.serial, c.user_data, if canceled = 0 then -ENOENT else if c.flags = 0 then 0 else canceled, 0⟩

/-- The answers of memory and of the native queue to a submission. -/
structure SubmitAnswers where
  reserved : Bool
  submit : Except Int Unit
  cancels : Nat → Bool

/-- The native queue takes all that was built for it. -/
def State.submit (s : State) (answers : SubmitAnswers) : State × Except Int Nat :=
  if !answers.reserved then (s, .error ENOMEM)
  else if s.pending = 0 then (s, .ok 0)
  else
    match answers.submit with
    | .error e => (s, .error e)
    | .ok () =>
      let submitted := (s.native.filter fun native => !native.submitted).length
      let expected := (s.requests.filter fun r => !r.2.submitted).length
      if submitted ≠ expected then ({ s with aborted := true }, .error 0)
      else
        let requests := s.requests.map fun r => (r.1, { r.2 with submitted := true })
        ({ s with
            native := s.native.map fun native => { native with submitted := true }
            requests
            cancellations := []
            completions := s.completions ++
              s.cancellations.map (·.complete requests answers.cancels) ++ s.localPending
            localPending := []
            pending := 0 }, .ok s.pending)

/-! ## The calls -/

/-- `enter_owned` until it waits: a submission, of all that is pending, and a harvest. -/
def State.enter (s : State) (toSubmit : Option Nat) (answers : SubmitAnswers) (pops : List Pop) :
    State × Except Int Nat :=
  let submitted : State × Except Int Nat :=
    match toSubmit with
    | some 0 => (s, .ok 0)
    | some limit => if limit < s.pending then (s, .error EOPNOTSUPP) else s.submit answers
    | none => s.submit answers
  match submitted with
  | (s, .error e) => (s, .error e)
  | (s, .ok count) =>
    match s.harvest pops with
    | (s, .error e) => (s, .error e)
    | (s, .ok ()) => (s, .ok count)

/-- The first `count` completions are handed over. -/
def State.deliver (s : State) (count : Nat) : State :=
  { s with
    delivered := s.delivered ++ s.completions.take count
    completions := s.completions.drop count }

def State.reap (s : State) (length : Nat) (pops : List Pop) : State × Except Int Nat :=
  if length = 0 then (s, .ok 0)
  else
    match s.harvest pops with
    | (s, .error e) => (s, .error e)
    | (s, .ok ()) =>
      let count := min length s.completions.length
      if count = 0 then (s, .error EAGAIN) else (s.deliver count, .ok count)

/-- The bytes of a completion. -/
def entrySize : Nat := 16

/-- `reap_guest`, with the number of bytes that can be copied before a fault. -/
def State.reapGuest (s : State) (address capacity : Nat) (pops : List Pop) (copied : Nat) :
    State × Except Int Nat :=
  if address = 0 ∨ capacity = 0 ∨ capacity > 2 ^ 31 - 1 then (s, .error EINVAL)
  else if address + capacity * entrySize ≥ 2 ^ 64 then (s, .error EFAULT)
  else
    match s.harvest pops with
    | (s, .error e) => (s, .error e)
    | (s, .ok ()) =>
      let count := min capacity s.completions.length
      if count = 0 then (s, .error EAGAIN)
      else
        let published := min copied (count * entrySize) / entrySize
        if published = 0 then (s, .error EFAULT) else (s.deliver published, .ok published)

inductive Op
  | push (entry : SubmissionEntry) (answers : PushAnswers)
  -- The entry was copied from the guest, or not.
  | pushGuest (entry : Option SubmissionEntry) (answers : PushAnswers)
  | enter (toSubmit : Option Nat) (answers : SubmitAnswers) (pops : List Pop)
  -- A waiting `enter` looks for completions again.
  | wake (pops : List Pop)
  | reap (length : Nat) (pops : List Pop)
  | reapGuest (address capacity : Nat) (pops : List Pop) (copied : Nat)

def State.step (s : State) (op : Op) : State :=
  if s.aborted then s
  else
    match op with
    | .push entry answers => (s.push entry answers).1
    | .pushGuest none _ => s
    | .pushGuest (some entry) answers => (s.push entry answers).1
    | .enter toSubmit answers pops => (s.enter toSubmit answers pops).1
    | .wake pops => (s.harvest pops).1
    | .reap length pops => (s.reap length pops).1
    | .reapGuest address capacity pops copied => (s.reapGuest address capacity pops copied).1

end Kinakaze.IoRing
