import Kinakaze.Library.Codec
import Kinakaze.Library.StatefulCall

/-!
# An inotify instance

An instance is a published record of watches and a bounded queue of events.  A watch on a
directory of the host is filled by a native queue; a watch on a node of an in-memory
filesystem by a published queue of its own, to which the transactions of that filesystem
write.
-/

namespace Kinakaze.Inotify

open Library Std

def EIO : Int := 5
def EAGAIN : Int := 11
def EEXIST : Int := 17
def ENOTDIR : Int := 20
def EINVAL : Int := 22
def ENOSPC : Int := 28
def ENOENT : Int := 2

def IN_ACCESS : BitVec 32 := 0x00000001
def IN_MODIFY : BitVec 32 := 0x00000002
def IN_ATTRIB : BitVec 32 := 0x00000004
def IN_CREATE : BitVec 32 := 0x00000100
def IN_DELETE : BitVec 32 := 0x00000200
def IN_DELETE_SELF : BitVec 32 := 0x00000400
def IN_MOVED_FROM : BitVec 32 := 0x00000040
def IN_MOVED_TO : BitVec 32 := 0x00000080
def IN_ALL_EVENTS : BitVec 32 := 0x00000fff
def IN_ISDIR : BitVec 32 := 0x40000000
def IN_IGNORED : BitVec 32 := 0x00008000
def IN_ONLYDIR : BitVec 32 := 0x01000000
def IN_MASK_CREATE : BitVec 32 := 0x10000000
def IN_MASK_ADD : BitVec 32 := 0x20000000
def IN_ONESHOT : BitVec 32 := 0x80000000
def IN_Q_OVERFLOW : BitVec 32 := 0x00004000

def QUEUE_LIMIT : Nat := 4096

/-- `BANK_SIZE - 8`, the most that a store publishes. -/
def PUBLICATION_LIMIT : Nat := 32 * 1024 * 1024 - 8

abbrev Bytes := List (BitVec 8)

/-- The bits of `flag` that `mask` has. -/
def has (mask flag : BitVec 32) : Bool := mask &&& flag != 0

/-! ## Paths -/

/-- A native path is text that may hold unpaired surrogates. -/
inductive PathUnit
  | char (c : Char)
  | surrogate (unit : BitVec 16)
  deriving DecidableEq

abbrev Path := List PathUnit

/-- `to_string_lossy`. -/
def PathUnit.lossy : PathUnit → Char
  | .char c => c
  | .surrogate _ => Char.ofNat 0xfffd

def Path.lossy (p : Path) : String := String.ofList (p.map PathUnit.lossy)

def Path.ofString (s : String) : Path := s.toList.map .char

/-- The path is text. -/
def Path.Unicode (p : Path) : Prop := ∀ unit ∈ p, ∃ c, unit = .char c

/-- The UTF-8 bytes of a text. -/
def utf8 (s : String) : Bytes := s.toUTF8.data.toList.map UInt8.toBitVec

def fromUtf8 (bytes : Bytes) : Option String :=
  String.fromUTF8? ⟨(bytes.map UInt8.ofBitVec).toArray⟩

/-! ## Events -/

/-- The four bytes of a watch descriptor. -/
def wdBytes (wd : Int) : Bytes := leBytes 4 (wd % 2 ^ 32).toNat

def encodeEvent (wd : Int) (mask cookie : BitVec 32) (name : Bytes) : Bytes :=
  let nameLen := if name.isEmpty then 0 else ((name.length + 1 + 3) / 4 * 4) % 2 ^ 32
  let copied := if name.isEmpty then [] else name.take (min name.length (nameLen - 1))
  wdBytes wd ++ (leBytes 4 mask.toNat ++ (leBytes 4 cookie.toNat ++ (leBytes 4 nameLen ++
    (copied ++ List.replicate (nameLen - copied.length) 0))))

/-- The mask that stands in an event. -/
def eventMask (event : Bytes) : BitVec 32 := .ofNat 32 (ofLe ((event.drop 4).take 4))

/-- The event that says that events were lost. -/
def overflowEvent : Bytes := encodeEvent (-1) IN_Q_OVERFLOW 0 []

/-- The event that ends a watch. -/
def ignoredEvent (wd : Int) : Bytes := encodeEvent wd IN_IGNORED 0 []

/-! ## The instance -/

structure Watch where
  id : BitVec 64
  volume : BitVec 64
  node : BitVec 64
  path : Path
  filter : Bytes
  mask : BitVec 32
  cookie : BitVec 32

abbrev Watches := ExtTreeMap Int Watch compare

structure State where
  next : Int
  watches : Watches
  queue : List Bytes

/-- `as i32` of a word. -/
def readI32 : Parser Int Int := do
  let value ← word EIO
  pure (value.setWidth 32).toInt

/-- `as u64` of an `i32`. -/
def i32Bytes (value : Int) : Bytes := wordBytes (.ofInt 64 value)

def readPath : Parser Int Path := do
  let bytes ← counted EIO
  match fromUtf8 bytes with
  | some s => pure (Path.ofString s)
  | none => fun _ => .error EIO

def Watch.write (entry : Int × Watch) : Bytes :=
  i32Bytes entry.1 ++ wordBytes entry.2.id ++ wordBytes entry.2.volume ++
    wordBytes entry.2.node ++ shortBytes entry.2.mask ++ shortBytes entry.2.cookie ++
    countedBytes (utf8 entry.2.path.lossy) ++ countedBytes entry.2.filter

def readWatch (watches : Watches) : Parser Int Watches := do
  let wd ← readI32
  let id ← word EIO
  let volume ← word EIO
  let node ← word EIO
  let mask ← truncated EIO 32
  let cookie ← truncated EIO 32
  let path ← readPath
  let filter ← counted EIO
  refuse EIO watches[wd]?.isSome
  pure (watches.insert wd { id, volume, node, path, filter, mask, cookie })

/-- `CYINOFD1`. -/
def MAGIC : BitVec 64 := 0x3144464f4e495943

def readEvent (queue : List Bytes) : Parser Int (List Bytes) := do
  let event ← counted EIO
  pure (queue ++ [event])

def State.reader : Parser Int State := do
  let magic ← word EIO
  refuse EIO (magic != MAGIC)
  let next ← readI32
  let count ← number EIO
  refuse EIO (decide (count > 16384))
  let watches ← iterate readWatch count ∅
  let count ← number EIO
  refuse EIO (decide (count > QUEUE_LIMIT + 1))
  let queue ← iterate readEvent count []
  finish EIO
  pure { next, watches, queue }

def State.decode (bytes : Bytes) : Except Int State := State.reader.run' bytes

def State.encode (s : State) : Bytes :=
  wordBytes MAGIC ++ (i32Bytes s.next ++ (numberBytes s.watches.size ++
    (s.watches.toList.flatMap Watch.write ++ (numberBytes s.queue.length ++
      s.queue.flatMap countedBytes))))

def State.read (s : State) : Except Int State := State.decode s.encode

/-- An event is left out when it repeats the last one; a full queue takes one more
event, which says so. -/
def State.push (s : State) (event : Bytes) : State :=
  if s.queue.getLast? = some event then s
  else if s.queue.length < QUEUE_LIMIT then { s with queue := s.queue ++ [event] }
  else if s.queue.length = QUEUE_LIMIT then { s with queue := s.queue ++ [overflowEvent] }
  else s

/-! ## The queue of a memory watch -/

structure Queue where
  mask : BitVec 32
  events : List Bytes

/-- `KINO0001`. -/
def QUEUE_MAGIC : BitVec 64 := 0x313030304f4e494b

def Queue.reader : Parser Int Queue := do
  let magic ← word EIO
  refuse EIO (magic != QUEUE_MAGIC)
  let mask ← truncated EIO 32
  let count ← number EIO
  refuse EIO (decide (count > 4097))
  let events ← iterate readEvent count []
  finish EIO
  pure { mask, events }

def Queue.decode (bytes : Bytes) : Except Int Queue := Queue.reader.run' bytes

def Queue.encode (q : Queue) : Bytes :=
  wordBytes QUEUE_MAGIC ++ (shortBytes q.mask ++ (numberBytes q.events.length ++
    q.events.flatMap countedBytes))

def Queue.read (q : Queue) : Except Int Queue := Queue.decode q.encode

/-- The last step of a push: a watch for one event is done. -/
def Queue.fired (q : Queue) : Queue :=
  if has q.mask IN_ONESHOT then { mask := 0, events := q.events ++ [ignoredEvent 0] } else q

def Queue.push (q : Queue) (mask cookie : BitVec 32) (name : Bytes) : Queue :=
  if q.mask = 0 ∨ has (mask &&& q.mask) IN_ALL_EVENTS = false then q
  else if q.events.length ≥ 4096 then
    if q.events.length = 4096 then { q with events := q.events ++ [overflowEvent] } else q
  else
    let event := encodeEvent 0 (mask &&& (q.mask ||| IN_ISDIR)) cookie name
    (if q.events.getLast? = some event then q
      else { q with events := q.events ++ [event] }).fired

/-- The node of the watch is gone. -/
def Queue.delete (q : Queue) : Queue :=
  let pushed := q.push IN_DELETE_SELF 0 []
  if pushed.mask ≠ 0 then { mask := 0, events := pushed.events ++ [ignoredEvent 0] } else pushed

/-- A change that a transaction finds on a watched node: no kind of change has the bit of
`IN_IGNORED`. -/
structure Change where
  kind : BitVec 32
  cookie : BitVec 32
  name : Bytes
  plain : has kind IN_IGNORED = false

/-- What the queue makes of the changes of one transaction. -/
def Queue.observe (q : Queue) (changes : List Change) : Queue :=
  changes.foldl (fun q c => q.push c.kind c.cookie c.name) q

/-- `Watch::mask`. -/
def Queue.setMask (q : Queue) (mask : BitVec 32) : Queue :=
  { q with mask := if has mask IN_MASK_ADD then q.mask ||| mask else mask }

/-- The events of a queue under the descriptor of the watch. -/
def rename (wd : Int) (event : Bytes) : Bytes :=
  if event.take 4 ≠ wdBytes (-1) then wdBytes wd ++ event.drop 4 else event

end Kinakaze.Inotify
