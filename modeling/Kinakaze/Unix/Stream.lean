import Kinakaze.Unix.Connection

/-!
# Rights and credentials on a byte stream

A direction with its pipe: the bytes of a send go into the pipe between its two locked
sections, and a receive looks at the pipe, then at the published queue, then takes its
bytes and publishes at last.  The steps of one send and one receive, which hold the two
locks of the direction, may alternate in any way.

The bytes of the stream are numbered; `owners` says under which credentials each was sent.
-/

namespace Kinakaze.Unix

open Library

def saturatingAdd (a b : Nat) : Nat := min (a + b) (2 ^ 64 - 1)

/-- `stream_receive_limit`, the part about the records. -/
def Queue.limitRecords (q : Queue) (amount : Nat) : Nat :=
  match q.records.find? fun record =>
      decide (record.offset ≥ q.received) &&
        decide (record.offset < saturatingAdd q.received amount) with
  | some record => min amount (saturatingAdd (record.offset - q.received) record.length)
  | none => amount

/-- `stream_receive_limit`, the part about the credentials. -/
def Queue.limitCredentials (q : Queue) (amount : Nat) : Nat :=
  if q.readerPasscred then
    match q.credentials.find? fun range => decide (range.stop > q.received) with
    | some range =>
      min amount ((if range.start > q.received then range.start else range.stop) - q.received)
    | none => amount
  else amount

def Queue.limit (q : Queue) (amount : Nat) : Nat := q.limitCredentials (q.limitRecords amount)

/-- A receive under way: it has looked at the pipe, or knows how much it may take, or has
taken it. -/
inductive Receiving
  | inspected (peek : Bool) (amount : Nat)
  | limited (peek : Bool) (amount : Nat)
  | taken (amount : Nat)

/-- The bytes that the receive has found, or may take, or took. -/
def Receiving.amount : Receiving → Nat
  | .inspected _ amount => amount
  | .limited _ amount => amount
  | .taken amount => amount

def Receiving.isLimited : Receiving → Bool
  | .inspected _ _ => false
  | _ => true

/-- What a receive returned: the bytes from `start` to before `stop`, and the rights of
these records. -/
structure Delivery where
  peek : Bool
  start : Nat
  stop : Nat
  records : List Record

/-- A byte of the pipe: where the send started that wrote it, and its credentials. -/
structure Origin where
  send : Nat
  sender : Option Sender

/-- A direction with its pipe and its history: every byte that the pipe took, and how many
went out; the records attached to these bytes, by offset and token; the descriptors that
are pinned, by token; what was received. -/
structure Stream where
  dir : Direction := {}
  bytes : List Origin := []
  consumed : Nat := 0
  receiving : Option Receiving := none
  attached : List (Nat × BitVec 64) := []
  pinned : List (BitVec 64) := []
  deliveries : List Delivery := []

def Record.key (r : Record) : Nat × BitVec 64 := (r.offset, r.token)

/-- The record of a message, were it attached at `offset`. -/
def Message.key (m : Message) (offset : Nat) : List (Nat × BitVec 64) :=
  m.record.toList.map fun r => (offset, r.token)

/-- The message is the one that carries this record. -/
def Message.carries (m : Message) (token : BitVec 64) : Bool :=
  m.record.any fun r => r.token == token

namespace Stream

inductive Event
  | send (m : Message) (stream : m.messageMode = false)
  | write (count : Nat)
  | sent (error : Int) (quota : Bool)
  | inspect (peek : Bool) (len : Nat)
  | limit
  | take
  | fail
  | commit

/-- The first section of a send; a record that is not published is released at once. -/
def send (f : Stream) (m : Message) : Stream :=
  let dir := f.dir.send m
  if f.dir.sending.isNone ∧ dir.sending.isSome then
    { f with
      dir
      attached := f.attached ++ m.key f.dir.queue.sent
      pinned := f.pinned ++ m.record.toList.map Record.token }
  else { f with dir }

/-- The pipe takes more bytes of the send under way. -/
def write (f : Stream) (count : Nat) : Stream :=
  match f.dir.sending with
  | none => f
  | some s =>
    if f.bytes.length + count ≤ s.start + s.message.len then
      { f with
        bytes := f.bytes ++ List.replicate count ⟨s.start, f.dir.queue.sender s.message⟩ }
    else f

/-- The second section of a send: a send of which the pipe took nothing has failed, and
releases its record. -/
def sent (f : Stream) (error : Int) (quota : Bool) : Stream :=
  match f.dir.sending with
  | none => f
  | some s =>
    if f.bytes.length = s.start then
      { f with
        dir := f.dir.sent (.error error) quota
        attached := f.attached.filter fun a => !s.message.carries a.2
        pinned := f.pinned.filter fun token => !s.message.carries token }
    else { f with dir := f.dir.sent (.ok (f.bytes.length - s.start)) quota }

/-- A receive begins when it finds bytes. -/
def inspect (f : Stream) (peek : Bool) (len : Nat) : Stream :=
  if f.receiving = none ∧ f.consumed < f.bytes.length then
    { f with receiving := some (.inspected peek (min len (f.bytes.length - f.consumed))) }
  else f

def limit (f : Stream) : Stream :=
  match f.receiving with
  | some (.inspected peek amount) =>
    match f.dir.queue.read with
    | .ok q => { f with receiving := some (.limited peek (q.limit amount)) }
    | .error _ => { f with receiving := none }
  | _ => f

def take (f : Stream) : Stream :=
  match f.receiving with
  | some (.limited false amount) =>
    { f with consumed := f.consumed + amount, receiving := some (.taken amount) }
  | _ => f

/-- A receive that took nothing returns its error. -/
def fail (f : Stream) : Stream :=
  match f.receiving with
  | some (.taken _) => f
  | _ => { f with receiving := none }

/-- The last section of a receive; a peek publishes nothing and releases nothing. -/
def commit (f : Stream) : Stream :=
  let q := f.dir.queue
  match f.receiving with
  | some (.limited true amount) =>
    { f with
      receiving := none
      deliveries := f.deliveries ++
        [⟨true, q.received, q.received + amount, q.delivered (q.received + amount)⟩] }
  | some (.taken amount) =>
    let records := q.delivered (q.received + amount)
    { f with
      dir := f.dir.section fun q => q.receive false amount
      receiving := none
      pinned := f.pinned.filter fun token => !records.any fun r => r.token == token
      deliveries := f.deliveries ++ [⟨false, q.received, q.received + amount, records⟩] }
  | _ => f

def step (f : Stream) : Event → Stream
  | .send m _ => f.send m
  | .write count => f.write count
  | .sent error quota => f.sent error quota
  | .inspect peek len => f.inspect peek len
  | .limit => f.limit
  | .take => f.take
  | .fail => f.fail
  | .commit => f.commit

/-- A connection with the options of its two ends. -/
def start (reader writer : Bool) : Stream where
  dir := ⟨{ readerPasscred := reader, writerPasscred := writer }, none⟩

/-! ## What the association promises -/

/-- The byte that the record was attached to is one from `start` to before `stop`. -/
def within (start stop : Nat) (a : Nat × BitVec 64) : Bool :=
  decide (start ≤ a.1) && decide (a.1 < stop)

/-- What one receive may return: from the first byte of a record on, only bytes of the send
that the record belongs to; and under `passcred` only bytes with the same credentials. -/
structure Window (attached : List (Nat × BitVec 64)) (bytes : List Origin) (passcred : Bool)
    (start stop : Nat) : Prop where
  extent : ∀ a ∈ attached, within start stop a = true → ∀ i b, a.1 ≤ i → i < stop →
    bytes[i]? = some b → b.send = a.1
  same : passcred = true → ∃ sender, ∀ i b, start ≤ i → i < stop → bytes[i]? = some b →
    b.sender = sender

/-- Some range of the list has the byte under this sender. -/
def Covered (credentials : List CredentialRange) (i : Nat) (sender : Sender) : Prop :=
  ∃ range ∈ credentials, range.start ≤ i ∧ i < range.stop ∧ range.sender = sender

/-- The credentials of a byte that was sent, or will be by the send under way. -/
def owner (f : Stream) (i : Nat) : Option Sender :=
  match f.bytes[i]? with
  | some b => b.sender
  | none =>
    match f.dir.sending with
    | some s => if i < s.start + s.message.len then f.dir.queue.sender s.message else none
    | none => none

/-- The receives that were no peeks. -/
def consuming (f : Stream) : List Delivery := f.deliveries.filter fun d => !d.peek

/-- What the receives have returned. -/
structure History (f : Stream) : Prop where
  window : ∀ d ∈ f.deliveries, d.stop ≤ f.bytes.length ∧
    Window f.attached f.bytes f.dir.queue.readerPasscred d.start d.stop
  rights : ∀ d ∈ f.deliveries, d.records.map Record.key = f.attached.filter (within d.start d.stop)
  -- Every byte is consumed once, and every record is delivered once, in order.
  bytes : f.consuming.flatMap (fun d => List.range' d.start (d.stop - d.start)) =
    List.range f.dir.queue.received
  once : f.consuming.flatMap (fun d => d.records.map Record.key) =
    f.attached.filter (within 0 f.dir.queue.received)

/-- A send of which the pipe took nothing leaves nothing behind. -/
def LeavesNothing (f : Stream) (s : Sending) : Prop :=
  f.dir.sending = none ∧ (∀ r ∈ f.dir.queue.records, s.message.carries r.token = false) ∧
    (∀ token ∈ f.pinned, s.message.carries token = false) ∧
    ∀ range ∈ f.dir.queue.credentials, range.stop ≤ s.start

structure Lawful (f : Stream) : Prop where
  history : f.History
  nodup : (f.attached.map Prod.snd).Nodup
  records : f.dir.queue.records.map Record.key =
    f.attached.filter fun a => decide (f.dir.queue.received ≤ a.1)
  pinned : f.pinned = f.dir.queue.records.map Record.token
  ordered : Ordered f.dir.queue.credentials
  covered : ∀ i sender, f.dir.queue.received ≤ i →
    (f.owner i = some sender ↔ Covered f.dir.queue.credentials i sender)
  idle : f.dir.sending = none → f.bytes.length = f.dir.queue.sent ∧
    (∀ a ∈ f.attached, a.1 < f.bytes.length) ∧
    ∀ range ∈ f.dir.queue.credentials, range.stop ≤ f.bytes.length
  failed : ∀ s, f.dir.sending = some s → f.bytes.length = s.start →
    ∀ error quota, (f.sent error quota).LeavesNothing s

/-- A send finds room for what it publishes; its record has a token that no other has, and
the bytes of the stream can be counted. -/
def Room (f : Stream) : Event → Prop
  | .send m _ => Unix.Room f.dir (.send m) ∧ (f.dir.Publishes m →
      f.dir.queue.sent + m.len < 2 ^ 64 ∧ ∀ a ∈ f.attached, m.carries a.2 = false)
  | _ => True

end Stream

end Kinakaze.Unix
