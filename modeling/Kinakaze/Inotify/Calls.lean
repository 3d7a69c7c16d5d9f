import Kinakaze.Inotify.Instance

/-!
# The calls on an inotify instance

Every call decodes the published instance, acts on it and publishes what the action left,
also when the action failed.  `Work` is what an action sees: the instance, the published
queues of its memory watches, and the history of the instance.
-/

namespace Kinakaze.Inotify

open Library Std

/-- What happened in the life of the instance: the events that were queued, those that
were read, and the watch descriptors that were given out with the watch of each. -/
structure History where
  queued : List Bytes := []
  taken : List Bytes := []
  assigned : List (Int × BitVec 64) := []

structure Work where
  inst : State
  memory : Table Queue
  retired : List Watch
  history : History

def Work.push (w : Work) (event : Bytes) : Work :=
  { w with
    inst := w.inst.push event
    history :=
      { w.history with
        queued := w.history.queued ++ (w.inst.push event).queue.drop w.inst.queue.length } }

def Work.pushAll (w : Work) (events : List Bytes) : Work := events.foldl Work.push w

/-- The published queue of a memory watch. -/
def openQueue (id : BitVec 64) : Call Int Work Queue := do
  let w ← get
  let q ← require w.memory[id.toNat]? EIO
  match q.read with
  | .ok q => pure q
  | .error e => throw e

def storeQueue (id : BitVec 64) (q : Queue) : Call Int Work PUnit :=
  modify fun w => { w with memory := w.memory.insert id.toNat q }

/-- The result of something outside the instance. -/
def outside {α : Type} : Except Int α → Call Int Work α
  | .ok a => pure a
  | .error e => throw e

/-! ## Native queues -/

/-- What a native queue gives up: its packets, whether it lost any, whether its directory
is gone. -/
structure Drained where
  packets : List Bytes
  overflow : Bool
  ended : Bool

def u32At (packet : Bytes) (offset : Nat) : Nat := ofLe ((packet.drop offset).take 4)

/-- `chunks_exact(2)` as UTF-16 units. -/
def wideUnits : Bytes → List Nat
  | low :: high :: rest => ofLe [low, high] :: wideUnits rest
  | _ => []

def fromUtf16Lossy : List Nat → List Char
  | [] => []
  | [unit] => [if 0xd800 ≤ unit ∧ unit < 0xe000 then Char.ofNat 0xfffd else Char.ofNat unit]
  | unit :: next :: rest =>
    if 0xd800 ≤ unit ∧ unit < 0xdc00 ∧ 0xdc00 ≤ next ∧ next < 0xe000 then
      Char.ofNat (0x10000 + (unit - 0xd800) * 0x400 + (next - 0xdc00)) :: fromUtf16Lossy rest
    else if 0xd800 ≤ unit ∧ unit < 0xe000 then
      Char.ofNat 0xfffd :: fromUtf16Lossy (next :: rest)
    else Char.ofNat unit :: fromUtf16Lossy (next :: rest)

def wideToUtf8 (wide : Bytes) : Bytes := utf8 (String.ofList (fromUtf16Lossy (wideUnits wide)))

def actionToMask (action : Nat) (watchMask : BitVec 32) : BitVec 32 :=
  (match action with
    | 1 => IN_CREATE
    | 2 => IN_DELETE
    | 3 => IN_MODIFY ||| IN_ATTRIB
    | 4 => IN_MOVED_FROM
    | 5 => IN_MOVED_TO
    | _ => 0) &&& watchMask

/-- The packets of one watch on the way: its rename cookie, the events so far, and
whether a watch for one event is done. -/
structure Scan where
  cookie : BitVec 32
  events : List Bytes
  fired : Bool

/-- `wrapping_add(1).max(1)`. -/
def nextCookie (cookie : BitVec 32) : BitVec 32 := if cookie + 1 = 0 then 1 else cookie + 1

/-- One entry of a packet. -/
def Scan.note (s : Scan) (wd : Int) (watch : Watch) (action : Nat) (name : Bytes) : Scan :=
  let mask := actionToMask action watch.mask
  if (watch.filter.isEmpty ∨ watch.filter = name) ∧ mask ≠ 0 then
    let kept := if action = 4 then nextCookie s.cookie else s.cookie
    let cookie := if action = 4 ∨ action = 5 then kept else 0
    { cookie := kept
      events := s.events ++ [encodeEvent wd mask cookie (if watch.filter.isEmpty then name else [])]
      fired := has watch.mask IN_ONESHOT }
  else s

/-- The entries of a packet, each with the distance to the next; an error leaves what was
found before it. -/
def scanPacket (wd : Int) (watch : Watch) (packet : Bytes) (offset : Nat) (s : Scan) :
    Scan × Option Int :=
  if packet.length < offset + 12 then (s, none)
  else
    let next := u32At packet offset
    let action := u32At packet (offset + 4)
    let length := u32At packet (offset + 8)
    if packet.length < offset + 12 + length then (s, some EIO)
    else
      let s := s.note wd watch action (wideToUtf8 ((packet.drop (offset + 12)).take length))
      if s.fired ∨ next = 0 then (s, none)
      else if next < 12 ∨ next > packet.length - offset then (s, some EIO)
      else scanPacket wd watch packet (offset + next) s
termination_by packet.length - offset

def scanPackets (wd : Int) (watch : Watch) : List Bytes → Scan → Scan × Option Int
  | [], s => (s, none)
  | packet :: packets, s =>
    match scanPacket wd watch packet 0 s with
    | (s, some e) => (s, some e)
    | (s, none) => if s.fired then (s, none) else scanPackets wd watch packets s

/-! ## Collecting -/

/-- The events of the watches so far, and the descriptors of the watches that ended. -/
structure Round where
  events : List Bytes := []
  ignored : List Int := []

def isIgnored (event : Bytes) : Bool := has (eventMask event) IN_IGNORED

/-- `Watch::drain` and what `collect` makes of it. -/
def collectMemory (wd : Int) (watch : Watch) (round : Round) : Call Int Work Round := do
  let q ← openQueue watch.id
  if q.events = [] then pure round
  else
    storeQueue watch.id { q with events := [] }
    let events := q.events.map (rename wd)
    pure
      { events := round.events ++ events
        ignored := round.ignored ++ if events.any isIgnored then [wd] else [] }

def collectNative (native : Int → Except Int Drained) (wd : Int) (watch : Watch) (round : Round) :
    Call Int Work Round := do
  let drained ← outside (native wd)
  let lost := if drained.overflow then [overflowEvent] else []
  let scanned := scanPackets wd watch drained.packets ⟨watch.cookie, lost, false⟩
  modify fun w =>
    { w with
      inst :=
        { w.inst with
          watches := w.inst.watches.modify wd fun v => { v with cookie := scanned.1.cookie } } }
  match scanned.2 with
  | some e => throw e
  | none =>
    let gone := if drained.ended ∧ has watch.mask IN_DELETE_SELF then
      [encodeEvent wd IN_DELETE_SELF 0 []] else []
    pure
      { events := round.events ++ (scanned.1.events ++ gone)
        ignored := round.ignored ++ if scanned.1.fired ∨ drained.ended then [wd] else [] }

def collectWatch (native : Int → Except Int Drained) (round : Round) (entry : Int × Watch) :
    Call Int Work Round :=
  if entry.2.volume ≠ 0 then collectMemory entry.1 entry.2 round
  else collectNative native entry.1 entry.2 round

/-- An ended watch goes; a memory watch has said so itself. -/
def Work.dropWatch (w : Work) (wd : Int) : Work :=
  match w.inst.watches[wd]? with
  | none => w
  | some watch =>
    let erased : Work :=
      { w with
        inst := { w.inst with watches := w.inst.watches.erase wd }
        retired := w.retired ++ [watch] }
    if watch.volume = 0 then erased.push (ignoredEvent wd) else erased

def collect (native : Int → Except Int Drained) : Call Int Work PUnit := do
  let w ← get
  let round ← w.inst.watches.toList.foldlM (collectWatch native) {}
  modify fun w => w.pushAll round.events
  modify fun w => (round.ignored.mergeSort (· ≤ ·)).dedup.foldl Work.dropWatch w

/-! ## The calls -/

def validMask (mask : BitVec 32) : Bool :=
  has mask IN_ALL_EVENTS && !(has mask IN_MASK_ADD && has mask IN_MASK_CREATE)

def changeMask (wd : Int) (watch : Watch) (mask : BitVec 32) : Call Int Work PUnit := do
  failIf (has mask IN_MASK_CREATE = true) EEXIST
  if watch.volume ≠ 0 then
    let q ← openQueue watch.id
    storeQueue watch.id (q.setMask mask)
  modify fun w =>
    { w with
      inst :=
        { w.inst with
          watches := w.inst.watches.modify wd fun v =>
            { v with mask := if has mask IN_MASK_ADD then v.mask ||| mask else mask } } }

/-- The last step of an addition: the descriptor is given out. -/
def insertWatch (watch : Watch) : Call Int Work Int := do
  let w ← get
  let wd := w.inst.next
  set
    { w with
      inst := { w.inst with next := wd + 1, watches := w.inst.watches.insert wd watch }
      history := { w.history with assigned := w.history.assigned ++ [(wd, watch.id)] } }
  pure wd

def I32_MAX : Int := 2 ^ 31 - 1

/-- The body of `add_memory_watch`; `created` is the queue of the new watch. -/
def addMemoryWatch (volume node : BitVec 64) (mask : BitVec 32)
    (created : Except Int (BitVec 64)) : Call Int Work Int := do
  let w ← get
  match w.inst.watches.toList.find? fun entry =>
      entry.2.volume == volume && entry.2.node == node with
  | some (wd, watch) =>
    changeMask wd watch mask
    pure wd
  | none =>
    failIf (w.inst.next = I32_MAX) ENOSPC
    let id ← outside created
    storeQueue id ⟨mask, []⟩
    insertWatch { id, volume, node, path := [], filter := [], mask, cookie := 0 }

/-- What a path leads to: whether it is a directory, and its name in its parent. -/
structure Target where
  isDir : Bool
  fileName : Option Bytes

/-- The body of `add_watch`. -/
def addWatch (path : Path) (mask : BitVec 32) (target : Except Int Target)
    (created : Except Int (BitVec 64)) : Call Int Work Int := do
  let w ← get
  match w.inst.watches.toList.find? fun entry =>
      entry.2.volume == 0 && decide (entry.2.path = path) with
  | some (wd, watch) =>
    changeMask wd watch mask
    pure wd
  | none =>
    failIf (w.inst.watches.size ≥ 16384) ENOSPC
    failIf (w.inst.next = I32_MAX) ENOSPC
    let found ← outside target
    failIf (has mask IN_ONLYDIR = true ∧ ¬ found.isDir) ENOTDIR
    let filter ← if found.isDir then pure [] else require found.fileName ENOENT
    let id ← outside created
    insertWatch { id, volume := 0, node := 0, path, filter, mask, cookie := 0 }

def rmWatch (native : Int → Except Int Drained) (wd : Int) : Call Int Work PUnit := do
  collect native
  let w ← get
  let watch ← require w.inst.watches[wd]? EINVAL
  set
    { w with
      inst := { w.inst with watches := w.inst.watches.erase wd }
      retired := w.retired ++ [watch] }
  modify fun w => w.push (ignoredEvent wd)

/-- The events that a buffer takes, and those that stay. -/
def fill (capacity : Nat) : Nat → List Bytes → Except Int Nat × List Bytes
  | written, [] => (.ok written, [])
  | written, event :: rest =>
    if event.length > capacity - written then
      (if written = 0 then .error EINVAL else .ok written, event :: rest)
    else fill capacity (written + event.length) rest

def readEvents (native : Int → Except Int Drained) (capacity : Nat) :
    Call Int Work (Except Int Nat) := do
  collect native
  let w ← get
  if w.inst.queue = [] then pure (.error EAGAIN)
  else
    let (result, rest) := fill capacity 0 w.inst.queue
    set
      { w with
        inst := { w.inst with queue := rest }
        history :=
          { w.history with
            taken := w.history.taken ++ w.inst.queue.take (w.inst.queue.length - rest.length) } }
    pure result

/-! ## Steps -/

/-- `release` of what an action retired. -/
def Work.release (w : Work) : Work :=
  { w with
    memory := w.retired.foldl (fun memory watch =>
      if watch.volume = 0 then memory else memory.erase watch.id.toNat) w.memory
    retired := [] }

/-- `update`: what the action leaves is published, unless it is too large; the queues of
memory watches are published by themselves. -/
def update {α : Type} (op : Call Int Work α) (w : Work) : Work :=
  match w.inst.read with
  | .error _ => w
  | .ok inst =>
    let after := (exec op { w with inst, retired := [] }).2
    if after.inst.encode.length > PUBLICATION_LIMIT then { w with memory := after.memory }
    else after.release

inductive Event
  | addMemoryWatch (volume node : BitVec 64) (memory : volume ≠ 0) (isDir : Bool)
      (mask : BitVec 32) (created : Except Int (BitVec 64))
  | addWatch (path : Path) (mask : BitVec 32) (target : Except Int Target)
      (created : Except Int (BitVec 64))
  | rmWatch (native : Int → Except Int Drained) (wd : Int)
  | read (native : Int → Except Int Drained) (capacity : Nat)
  | poll (native : Int → Except Int Drained)
  | observe (id : BitVec 64) (changes : List Change)
  | delete (id : BitVec 64)

/-- A transaction publishes on the queue of a watch. -/
def Work.transact (w : Work) (id : BitVec 64) (f : Queue → Queue) : Work :=
  match w.memory[id.toNat]? with
  | none => w
  | some q =>
    match q.read with
    | .error _ => w
    | .ok q =>
      if (f q).encode.length > PUBLICATION_LIMIT then w
      else { w with memory := w.memory.insert id.toNat (f q) }

def step (w : Work) : Event → Work
  | .addMemoryWatch volume node _ isDir mask created =>
    if validMask mask ∧ ¬ (has mask IN_ONLYDIR ∧ ¬ isDir) then
      update (addMemoryWatch volume node mask created) w
    else w
  | .addWatch path mask target created =>
    if validMask mask then update (addWatch path mask target created) w else w
  | .rmWatch native wd => update (rmWatch native wd) w
  | .read native capacity => update (readEvents native capacity) w
  | .poll native => update (collect native) w
  | .observe id changes => w.transact id fun q => q.observe changes
  | .delete id => w.transact id Queue.delete

/-- `create_inotify`. -/
def start : Work where
  inst := ⟨1, ∅, []⟩
  memory := ∅
  retired := []
  history := {}

end Kinakaze.Inotify
