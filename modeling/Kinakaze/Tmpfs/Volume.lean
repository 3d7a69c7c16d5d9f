import Kinakaze.Library.OrderedTable
import Kinakaze.Library.Run
import Kinakaze.Library.Slots

/-!
# A tmpfs volume and its pages

The files of a volume keep their bytes in slots of one page each, which lie one after the
other in the volume's view.  A slot is mapped by a page of a file, or free.
-/

namespace Kinakaze.Tmpfs

open Library

def PAGE : Nat := 4096

def ENOENT : Int := 2
def EIO : Int := 5
def ENXIO : Int := 6
def ENOMEM : Int := 12
def EISDIR : Int := 21
def EINVAL : Int := 22
def ENOSPC : Int := 28
def EOVERFLOW : Int := 75

def S_IFMT : BitVec 32 := 0o170000
def S_IFREG : BitVec 32 := 0o100000
def S_IFDIR : BitVec 32 := 0o040000

structure Node where
  mode : BitVec 32
  links : Nat
  size : Nat := 0
  pages : Table Nat := ∅
  opens : List Nat := []
  mappings : List Nat := []
  mappingEpoch : Nat := 0

def Node.isReg (n : Node) : Bool := n.mode &&& S_IFMT == S_IFREG

structure State where
  limit : Nat
  capacity : Nat
  next : Nat := 1
  pageNext : Nat := 0
  free : List Nat := []
  nodes : Table Node := ∅

/-- A volume: its published state, and its view, byte by byte. -/
structure Volume where
  state : State
  view : Nat → BitVec 8

def State.used (s : State) : Nat := s.pageNext - s.free.length

/-- A node that nothing names, holds open or maps. -/
def Node.dead (n : Node) : Bool := n.links == 0 && n.opens.isEmpty && n.mappings.isEmpty

/-- The node without the opens and mappings of processes that are gone. -/
def Node.retain (alive : Nat → Bool) (n : Node) : Node :=
  { n with opens := n.opens.filter alive, mappings := n.mappings.filter alive }

/-- Removing a node frees its slots. -/
def State.remove (s : State) (id : Nat) : State :=
  match s.nodes[id]? with
  | some n => { s with nodes := s.nodes.erase id, free := s.free ++ valuesOf n.pages }
  | none => s

def State.collect (alive : Nat → Bool) (s : State) : State :=
  let s := { s with nodes := s.nodes.map fun _ n => n.retain alive }
  (selectKeys s.nodes Node.dead).foldl State.remove s

/-! ## Slots -/

/-- What an operation works on before it publishes. -/
structure Work where
  state : State
  view : Nat → BitVec 8

/-- The address of a slot in the view. -/
def State.page (s : State) (slot : Nat) : Except Int Nat :=
  if slot ≥ s.capacity / PAGE then .error EIO else .ok (slot * PAGE)

/-- `ptr::write_bytes(address, 0, count)`. -/
def zero (view : Nat → BitVec 8) (address count : Nat) : Nat → BitVec 8 :=
  fun a => if address ≤ a ∧ a < address + count then 0 else view a

/-- `ptr::copy_nonoverlapping` of the bytes to the address. -/
def store (view : Nat → BitVec 8) (address : Nat) (bytes : List (BitVec 8)) : Nat → BitVec 8 :=
  fun a => if address ≤ a ∧ a < address + bytes.length then bytes.getD (a - address) 0 else view a

/-- The slot that is taken next: the last of the free ones, or a new one. -/
def State.pop (s : State) : Nat × State :=
  match s.free.getLast? with
  | some slot => (slot, { s with free := s.free.dropLast })
  | none => (s.pageNext, { s with pageNext := s.pageNext + 1 })

/-- `Volume::allocate`, when the commit of the slot's memory succeeds or not. -/
def Work.allocate (w : Work) (committed : Bool) : Work × Except Int Nat :=
  if w.state.used ≥ w.state.limit / PAGE then (w, .error ENOSPC)
  else
    let (slot, state) := w.state.pop
    match state.page slot with
    | .error e => ({ w with state }, .error e)
    | .ok address =>
      if committed then (⟨state, zero w.view address PAGE⟩, .ok slot)
      else ({ w with state }, .error ENOMEM)

/-! ## Writing -/

/-- The loop of `write`.  An allocation that fails ends it; without a byte written it fails
the write. -/
def writeLoop (commits : Nat → Bool) (position : Nat) (buffer : List (BitVec 8)) (w : Work)
    (n : Node) (done : Nat) : Work × Except Int (Node × Nat) :=
  if done < buffer.length then
    let pos := position + done
    let part := min (PAGE - pos % PAGE) (buffer.length - done)
    match n.pages[pos / PAGE]? with
    | some slot =>
      match w.state.page slot with
      | .error e => (w, .error e)
      | .ok address =>
        writeLoop commits position buffer
          { w with view := store w.view (address + pos % PAGE) ((buffer.drop done).take part) }
          n (done + part)
    | none =>
      match w.allocate (commits (pos / PAGE)) with
      | (w, .ok slot) =>
        match w.state.page slot with
        | .error e => (w, .error e)
        | .ok address =>
          writeLoop commits position buffer
            { w with
              view := store w.view (address + pos % PAGE) ((buffer.drop done).take part) }
            { n with pages := n.pages.insert (pos / PAGE) slot } (done + part)
      | (w, .error e) => if done = 0 then (w, .error e) else (w, .ok (n, done))
  else (w, .ok (n, done))
termination_by buffer.length - done
decreasing_by all_goals
  have := Nat.mod_lt (position + done) (show 0 < PAGE by decide)
  omega

/-- The part of `write` that changes the state: at the end of the file or at a position,
with the bytes that the file size limit leaves. -/
def Work.write (w : Work) (commits : Nat → Bool) (id : Nat) (position : Option Nat)
    (buffer : List (BitVec 8)) : Work × Except Int Nat :=
  match w.state.nodes[id]? with
  | none => (w, .error ENOENT)
  | some n =>
    if !n.isReg then (w, .error EISDIR)
    else
      let start := position.getD n.size
      if start + buffer.length > 2 ^ 63 - 1 then (w, .error EINVAL)
      else
        match writeLoop commits start buffer w n 0 with
        | (w, .error e) => (w, .error e)
        | (w, .ok (n, done)) =>
          let n := if done ≠ 0 then
              { n with size := max n.size (start + done), mode := n.mode &&& ~~~0o6000 }
            else n
          ({ w with state := { w.state with nodes := w.state.nodes.insert id n } }, .ok done)

/-! ## Truncating and allocating -/

/-- `usize::div_ceil` by the size of a page. -/
def pageCeil (length : Nat) : Nat := (length + (PAGE - 1)) / PAGE

/-- `Volume::truncate`; `revoked` is what the other processes' mappings answered. -/
def Work.truncate (w : Work) (revoked : Except Int Unit) (id length : Nat) :
    Work × Except Int Unit :=
  match w.state.nodes[id]? with
  | none => (w, .error ENOENT)
  | some n =>
    if !n.isReg then (w, .error EINVAL)
    else
      let shrink : Except Int Nat :=
        if length < n.size then
          match revoked with
          | .error e => .error e
          | .ok _ =>
            if n.mappingEpoch + 1 < 2 ^ 64 then .ok (n.mappingEpoch + 1) else .error EOVERFLOW
        else .ok n.mappingEpoch
      match shrink with
      | .error e => (w, .error e)
      | .ok mappingEpoch =>
        let removed := n.pages.filter fun page _ => decide (pageCeil length ≤ page)
        let pages := n.pages.filter fun page _ => decide (page < pageCeil length)
        let state :=
          { w.state with
            free := w.state.free ++ valuesOf removed
            nodes := w.state.nodes.insert id { n with pages, size := length, mappingEpoch } }
        if length % PAGE = 0 then ({ w with state }, .ok ())
        else
          match pages[length / PAGE]? with
          | none => ({ w with state }, .ok ())
          | some slot =>
            match w.state.page slot with
            | .error e => ({ w with state }, .error e)
            | .ok address =>
              (⟨state, zero w.view (address + length % PAGE) (PAGE - length % PAGE)⟩, .ok ())

/-- The loop of `fallocate` over the pages. -/
def allocatePages (commits : Nat → Bool) : List Nat → Work → Node → Work × Except Int Node
  | [], w, n => (w, .ok n)
  | page :: rest, w, n =>
    if n.pages[page]?.isSome then allocatePages commits rest w n
    else
      match w.allocate (commits page) with
      | (w, .ok slot) =>
        allocatePages commits rest w { n with pages := n.pages.insert page slot }
      | (w, .error e) => (w, .error e)

def Work.fallocate (w : Work) (commits : Nat → Bool) (keepSize : Bool) (id offset length : Nat) :
    Work × Except Int Unit :=
  if offset + length ≥ 2 ^ 64 then (w, .error EOVERFLOW)
  else
    match w.state.nodes[id]? with
    | none => (w, .error ENOENT)
    | some n =>
      if !n.isReg then (w, .error EISDIR)
      else
        let first := offset / PAGE
        match allocatePages commits
            (List.range' first (pageCeil (offset + length) - first)) w n with
        | (w, .error e) => (w, .error e)
        | (w, .ok n) =>
          let n := if keepSize then n else { n with size := max n.size (offset + length) }
          ({ w with state := { w.state with nodes := w.state.nodes.insert id n } }, .ok ())

/-- `unlink` of a name of the node. -/
def Work.unlink (w : Work) (id : Nat) : Work × Except Int Unit :=
  match w.state.nodes[id]? with
  | none => (w, .error ENOENT)
  | some n =>
    if n.mode &&& S_IFMT == S_IFDIR then (w, .error EISDIR)
    else
      ({ w with
        state := { w.state with nodes := w.state.nodes.insert id { n with links := n.links - 1 } } },
        .ok ())

/-- A new file. -/
def Work.create (w : Work) (mode : BitVec 32) : Work × Except Int Unit :=
  if w.state.next + 1 < 2 ^ 64 then
    ({ w with
      state :=
        { w.state with
          next := w.state.next + 1
          nodes := w.state.nodes.insert w.state.next { mode, links := 1 } } }, .ok ())
  else (w, .error ENOSPC)

/-- The descriptors and mappings of a node change. -/
def Work.hold (w : Work) (id : Nat) (opens mappings : List Nat) : Work × Except Int Unit :=
  match w.state.nodes[id]? with
  | none => (w, .error ENOENT)
  | some n =>
    ({ w with
      state := { w.state with nodes := w.state.nodes.insert id { n with opens, mappings } } },
      .ok ())

/-- `Volume::change`: dead nodes are collected first, and a failing operation publishes
nothing, though what it did to the view remains. -/
def Volume.change {α : Type} (v : Volume) (alive : Nat → Bool)
    (op : Work → Work × Except Int α) : Volume × Except Int α :=
  let (w, result) := op ⟨v.state.collect alive, v.view⟩
  match result with
  | .ok a => (⟨w.state, w.view⟩, .ok a)
  | .error e => (⟨v.state, w.view⟩, .error e)

end Kinakaze.Tmpfs
