import Kinakaze.Library.Codec
import Kinakaze.Library.FirstMatch

/-!
# The ancillary state of a connection

One direction of a connected pair has, beside its pipe, a published record of the rights
and the credentials that travel with the bytes.  Every call reads the publication anew,
changes it under the queue's lock and publishes it again.
-/

namespace Kinakaze.Unix

open Library

def EIO : Int := 5
def EAGAIN : Int := 11
def EINVAL : Int := 22
def EPIPE : Int := 32
def ENOBUFS : Int := 105

structure Descriptor where
  description : BitVec 64
  raw : BitVec 64
  kind : BitVec 32
  flags : BitVec 32
  shared : BitVec 64
  metadata : List (BitVec 8)
  anonymous : List (BitVec 8)

/-- Rights that travel with the byte at `offset` of the stream. -/
structure Record where
  offset : Nat
  length : Nat
  keeper : BitVec 32
  created : BitVec 64
  rpc : BitVec 64
  token : BitVec 64
  fds : List Descriptor

/-- The numbers of a process, from its own namespace outwards, and its user. -/
structure Sender where
  numbers : List (BitVec 64 × BitVec 32)
  uid : BitVec 32
  gid : BitVec 32
  deriving DecidableEq

/-- What `Sender::capture` builds: it names at least one namespace, and no namespace or
process has the number zero. -/
structure Sender.Captured (s : Sender) : Prop where
  nonempty : s.numbers ≠ []
  nonzero : ∀ entry ∈ s.numbers, entry.1 ≠ 0 ∧ entry.2 ≠ 0

/-- The bytes from `start` to before `stop` were sent by `sender`. -/
structure CredentialRange where
  start : Nat
  stop : Nat
  sender : Sender
  deriving DecidableEq

structure AsyncOwner where
  owner : BitVec 32 := 0
  enabled : Bool := false

structure Queue where
  sent : Nat := 0
  received : Nat := 0
  readClosed : Bool := false
  writeClosed : Bool := false
  records : List Record := []
  readerAsync : AsyncOwner := {}
  writerAsync : AsyncOwner := {}
  writerBlocked : Bool := false
  readerFilter : BitVec 64 := 0
  readerFilterSnapshot : List (BitVec 8) := []
  readerPasscred : Bool := false
  writerPasscred : Bool := false
  credentials : List CredentialRange := []

/-! ## The published form -/

def Descriptor.write (d : Descriptor) : List (BitVec 8) :=
  wordBytes d.description ++ wordBytes d.raw ++ shortBytes d.kind ++ shortBytes d.flags ++
    wordBytes d.shared ++ countedBytes d.metadata ++ countedBytes d.anonymous

def Descriptor.read : Parser Int Descriptor := do
  let description ← word EIO
  let raw ← word EIO
  let kind ← truncated EIO 32
  let flags ← truncated EIO 32
  let shared ← word EIO
  let metadata ← counted EIO
  let anonymous ← counted EIO
  pure { description, raw, kind, flags, shared, metadata, anonymous }

/-- `u32::try_from` of a word. -/
def readU32 : Parser Int (BitVec 32) := do
  let value ← word EIO
  refuse EIO (decide (2 ^ 32 ≤ value.toNat))
  pure (value.setWidth 32)

def Record.write (r : Record) : List (BitVec 8) :=
  numberBytes r.offset ++ numberBytes r.length ++ shortBytes r.keeper ++
    wordBytes r.created ++ wordBytes r.rpc ++ wordBytes r.token ++
    numberBytes r.fds.length ++ r.fds.flatMap Descriptor.write

def Record.read : Parser Int Record := do
  let offset ← number EIO
  let length ← number EIO
  let keeper ← readU32
  let created ← word EIO
  let rpc ← word EIO
  let token ← word EIO
  let len ← number EIO
  refuse EIO (decide (len > 253))
  let fds ← iterate (fun fds => do let fd ← Descriptor.read; pure (fds ++ [fd])) len []
  pure { offset, length, keeper, created, rpc, token, fds }

def Sender.writeNumber (entry : BitVec 64 × BitVec 32) : List (BitVec 8) :=
  wordBytes entry.1 ++ shortBytes entry.2

def Sender.readNumber : Parser Int (BitVec 64 × BitVec 32) := do
  let ns ← word EIO
  let pid ← readU32
  refuse EIO (ns == 0 || pid == 0)
  pure (ns, pid)

def Sender.write (s : Sender) : List (BitVec 8) :=
  shortBytes s.uid ++ shortBytes s.gid ++ numberBytes s.numbers.length ++
    s.numbers.flatMap Sender.writeNumber

def Sender.read : Parser Int Sender := do
  let uid ← readU32
  let gid ← readU32
  let count ← number EIO
  let left ← remaining
  refuse EIO (count == 0 || decide (count > 32) || decide (count > left / 16))
  let numbers ← iterate (fun numbers => do
    let entry ← Sender.readNumber
    pure (numbers ++ [entry])) count []
  pure { numbers, uid, gid }

def CredentialRange.write (r : CredentialRange) : List (BitVec 8) :=
  numberBytes r.start ++ numberBytes r.stop ++ r.sender.write

/-- One range of the published list, which must not start before the last one ends. -/
def readRange (credentials : List CredentialRange) : Parser Int (List CredentialRange) := do
  let start ← number EIO
  let stop ← number EIO
  refuse EIO (decide (start ≥ stop) ||
    credentials.getLast?.any fun last => decide (last.stop > start))
  let sender ← Sender.read
  pure (credentials ++ [⟨start, stop, sender⟩])

def AsyncOwner.write (a : AsyncOwner) : List (BitVec 8) :=
  wordBytes (a.owner.signExtend 64) ++ flagBytes a.enabled

def AsyncOwner.read : Parser Int AsyncOwner := do
  let owner ← truncated EIO 32
  let enabled ← flag EIO
  pure { owner, enabled }

def readAsync : Parser Int (AsyncOwner × AsyncOwner × Bool) := do
  let reader ← AsyncOwner.read
  let writer ← AsyncOwner.read
  let blocked ← flag EIO
  pure (reader, writer, blocked)

def readCredentials : Parser Int (Bool × Bool × List CredentialRange) := do
  let readerPasscred ← flag EIO
  let writerPasscred ← flag EIO
  let count ← number EIO
  let left ← remaining
  refuse EIO (decide (count > left / 56))
  let credentials ← iterate readRange count []
  pure (readerPasscred, writerPasscred, credentials)

/-- `filter::State::validate_encoding`: the snapshot begins with `CBF1` and a flag and
goes on with whole instructions. -/
def validEncoding (bytes : List (BitVec 8)) : Bool :=
  bytes.isEmpty || !(decide (bytes.length < 8) || decide (bytes.length > 8 + 4096 * 8) ||
      bytes.length % 8 != 0 || bytes.take 4 != [0x43, 0x42, 0x46, 0x31] ||
      decide ((bytes.getD 4 0).toNat > 1) || (bytes.drop 5).take 3 != [0, 0, 0])

/-- What follows the records in the published form. -/
def Queue.readRest (q : Queue) : Parser Int Queue := do
  -- Older inactive connection records predate async notification state.
  let async ← orAtEnd ({}, {}, false) readAsync
  let readerFilter ← orAtEnd 0 (word EIO)
  let readerFilterSnapshot ← orAtEnd [] (counted EIO)
  refuse EIO (!validEncoding readerFilterSnapshot)
  let passcred ← orAtEnd (false, false, []) readCredentials
  finish EIO
  pure
    { q with
      readerAsync := async.1
      writerAsync := async.2.1
      writerBlocked := async.2.2
      readerFilter
      readerFilterSnapshot
      readerPasscred := passcred.1
      writerPasscred := passcred.2.1
      credentials := passcred.2.2 }

def Queue.reader : Parser Int Queue := do
  let sent ← number EIO
  let received ← number EIO
  let readClosed ← flag EIO
  let writeClosed ← flag EIO
  let count ← number EIO
  refuse EIO (decide (count > 253))
  let records ← iterate (fun records => do
    let r ← Record.read
    pure (records ++ [r])) count []
  Queue.readRest { sent, received, readClosed, writeClosed, records }

def Queue.decode (bytes : List (BitVec 8)) : Except Int Queue :=
  if bytes.isEmpty then .ok {} else Queue.reader.run' bytes

/-- The words that async notification adds. -/
def Queue.writeAsync (q : Queue) : List (BitVec 8) :=
  q.readerAsync.write ++ (q.writerAsync.write ++ flagBytes q.writerBlocked)

/-- The last part of the published form, left out when it would say nothing. -/
def Queue.writeCredentials (q : Queue) : List (BitVec 8) :=
  if q.readerFilter ≠ 0 ∨ q.readerPasscred ∨ q.writerPasscred ∨ q.credentials ≠ [] then
    wordBytes q.readerFilter ++ (countedBytes q.readerFilterSnapshot ++
      (flagBytes q.readerPasscred ++ (flagBytes q.writerPasscred ++
        (numberBytes q.credentials.length ++ q.credentials.flatMap CredentialRange.write))))
  else []

/-- The bytes that `Queue::write` publishes. -/
def Queue.encode (q : Queue) : List (BitVec 8) :=
  if q.records = [] ∧ q.readerFilter = 0 ∧ ¬ q.readerPasscred ∧ ¬ q.writerPasscred ∧
      q.credentials = [] then
    numberBytes q.sent ++ (numberBytes q.received ++ (flagBytes q.readClosed ++
      (flagBytes q.writeClosed ++ (numberBytes 0 ++ q.writeAsync))))
  else
    numberBytes q.sent ++ (numberBytes q.received ++ (flagBytes q.readClosed ++
      (flagBytes q.writeClosed ++ (numberBytes q.records.length ++
        (q.records.flatMap Record.write ++ (q.writeAsync ++ q.writeCredentials))))))

/-- `Queue::read` of what was published as `q`. -/
def Queue.read (q : Queue) : Except Int Queue := Queue.decode q.encode

/-- `Queue::write`: a publication of more than 16 MiB is refused. -/
def Queue.write (q : Queue) : Except Int Queue :=
  if q.encode.length > 16 * 1024 * 1024 then .error ENOBUFS else .ok q

/-! ## Sending -/

def checkedAdd (a b : Nat) : Except Int Nat :=
  if a + b < 2 ^ 64 then .ok (a + b) else .error EIO

/-- The ranges with the bytes from `start` to `stop` under `sender`: the last range grows
when it ends there and has the same sender. -/
def attach (credentials : List CredentialRange) (start stop : Nat) (sender : Sender) :
    List CredentialRange :=
  match credentials.getLast? with
  | some last =>
    if last.stop = start ∧ last.sender = sender then
      credentials.dropLast ++ [{ last with stop }]
    else credentials ++ [⟨start, stop, sender⟩]
  | none => credentials ++ [⟨start, stop, sender⟩]

/-- What one send brings along: the rights, exported to a record, the credentials that
the control data name, and those of the calling process. -/
structure Message where
  messageMode : Bool
  len : Nat
  fits : len < 2 ^ 64
  record : Option Record
  credentials : Option Sender
  current : Sender
  captured : current.Captured ∧ ∀ sender, credentials = some sender → sender.Captured

/-- The number of descriptors that a message passes. -/
def Message.rights (m : Message) : Nat :=
  match m.record with
  | none => 0
  | some r => r.fds.length

/-- How far one message moves the counters. -/
def advance (messageMode : Bool) (len : Nat) : Nat := if messageMode then 1 else len

/-- The credentials that are attached to a message. -/
def Queue.sender (q : Queue) (m : Message) : Option Sender :=
  match m.credentials with
  | some sender => some sender
  | none => if q.readerPasscred || q.writerPasscred then some m.current else none

def Queue.attachSender (q : Queue) (m : Message) : Except Int Queue :=
  match q.sender m with
  | none => .ok q
  | some sender => do
    let stop ← checkedAdd q.sent (advance m.messageMode m.len)
    .ok { q with credentials := attach q.credentials q.sent stop sender }

def Queue.pushRecord (q : Queue) (m : Message) : Queue :=
  match m.record with
  | none => q
  | some r => { q with records := q.records ++ [{ r with offset := q.sent, length := m.len }] }

/-- The first locked section of `send`: rights and credentials are published before the
payload. -/
def Queue.publish (q : Queue) (m : Message) : Except Int Queue :=
  if m.rights > 253 then .error EINVAL
  else if q.readClosed ∨ q.writeClosed then .error EPIPE
  else do
    let attached ← q.attachSender m
    let next := attached.pushRecord m
    if m.record.isSome ∨ (q.sender m).isSome then next.write else .ok q

/-- What a send under way remembers of its first section. -/
structure Sending where
  message : Message
  start : Nat
  hasCredentials : Bool

/-- The length of the first record with this token becomes the length that was sent. -/
def setLength (token : BitVec 64) (sent : Nat) (records : List Record) : List Record :=
  (updateFirst (fun r => r.token == token) (fun r => { r with length := sent }) records).getD
    records

/-- The queue after a payload of which `sent` bytes went into the pipe. -/
def Queue.advanced (q : Queue) (s : Sending) (sent : Nat) : Except Int Queue := do
  let next ← checkedAdd q.sent (advance s.message.messageMode sent)
  .ok
    { q with
      sent := next
      records := match s.message.record with
        | none => q.records
        | some record => setLength record.token sent q.records }

/-- A send that sent nothing takes its record back. -/
def Queue.dropRecord (q : Queue) (s : Sending) : Queue :=
  match s.message.record with
  | none => q
  | some r => { q with records := q.records.filter fun v => v.token ≠ r.token }

/-- The ranges end where the bytes end that were sent. -/
def Queue.trim (q : Queue) (stop : Nat) : Queue :=
  { q with
    credentials := (q.credentials.map fun range => { range with stop := min range.stop stop })
      |>.filter fun range => range.start < range.stop ∧ range.stop > q.received }

/-- What the second locked section of `send` publishes, after the payload: `result` is what
the pipe took, `quota` whether it has room again. -/
def Queue.settle (q : Queue) (s : Sending) (result : Except Int Nat) (quota : Bool) :
    Except Int Queue := do
  let blocked := match result with
    | .error e => if e = EAGAIN then { q with writerBlocked := !quota } else q
    | .ok _ => q
  let advanced ← match result with
    | .ok sent => blocked.advanced s sent
    | .error _ => .ok blocked
  let kept := match result with
    | .ok n => if n > 0 ∨ s.message.messageMode then advanced else advanced.dropRecord s
    | .error _ => advanced.dropRecord s
  let stop := match result with
    | .ok _ => kept.sent
    | .error _ => s.start
  .ok (if s.hasCredentials then kept.trim stop else kept)

/-- The second locked section of `send`. -/
def Queue.commit (q : Queue) (s : Sending) (result : Except Int Nat) (quota : Bool) :
    Except Int Queue := q.settle s result quota >>= Queue.write

/-- The calls that return before the second section: nothing was published for them. -/
def Sending.unpublished (s : Sending) (result : Except Int Nat) : Bool :=
  s.message.record.isNone && !s.hasCredentials &&
    match result with
    | .error e => decide (e ≠ EAGAIN)
    | .ok _ => false

/-! ## Receiving, shutdown and options -/

/-- The locked section of `recv` that consumes `count` bytes, or one message. -/
def Queue.receive (q : Queue) (messageMode : Bool) (count : Nat) : Except Int Queue := do
  let stop ← checkedAdd q.received (advance messageMode count)
  Queue.write
    { q with
      records := q.records.filter fun r => r.offset ≥ stop
      received := stop
      credentials := q.credentials.filter fun range => range.stop > stop
      writerBlocked := if stop ≠ q.received ∧ q.writerBlocked then false else q.writerBlocked }

/-- The records that a `recv` of the bytes before `stop` delivers. -/
def Queue.delivered (q : Queue) (stop : Nat) : List Record :=
  q.records.filter fun r => r.offset ≥ q.received ∧ r.offset < stop

def Queue.shutdownRead (q : Queue) : Except Int Queue :=
  Queue.write { q with readClosed := true, records := [], credentials := [] }

def Queue.shutdownWrite (q : Queue) : Except Int Queue :=
  Queue.write { q with writeClosed := true }

/-- `set_passcred`, by the end that writes this direction or the one that reads it. -/
def Queue.setPasscred (q : Queue) (writer enabled : Bool) : Except Int Queue :=
  if writer then
    if q.writerPasscred ≠ enabled then Queue.write { q with writerPasscred := enabled }
    else .ok q
  else
    if q.readerPasscred ≠ enabled then Queue.write { q with readerPasscred := enabled }
    else .ok q

end Kinakaze.Unix
