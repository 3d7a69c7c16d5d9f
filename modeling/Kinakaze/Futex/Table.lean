import Mathlib.Data.Vector.Defs

/-!
# The futex record table

All processes of a domain share one table of futex records.  A guarded section
takes the named mutex, edits a copy of the table and commits the copy.  Wakes and
requeues exist twice: as the plain loops, and as one compaction of the table that
`KINAKAZE_FUTEX_OPT` selects.
-/

namespace Kinakaze.Futex

def EAGAIN : Int := 11
def ENOMEM : Int := 12
def EINVAL : Int := 22

/-- A futex: a tag, the identity of its memory, and an offset in it. -/
abbrev Key := Vector (BitVec 64) 5

/-! ## Records -/

def PRIVATE_PARK : BitVec 32 := 1 <<< 31
def WAIT : BitVec 32 := 1 <<< 30
def STATE : BitVec 32 := 1 <<< 29
def JOURNAL : BitVec 32 := 1 <<< 28
def REQUEUE : BitVec 32 := 1 <<< 26
def TARGET : BitVec 32 := 1 <<< 25
def SOURCE_JOURNAL : BitVec 32 := 1 <<< 23

/-- `u32::MAX`, which meets every bitset but the empty one. -/
def MATCH_ANY : BitVec 32 := BitVec.allOnes 32

/-- A row of the table.  For the rows of PI futexes `bitset` is a thread number. -/
structure Record where
  key : Key
  token : Nat
  born : BitVec 64
  host : BitVec 32
  thread : BitVec 32
  bitset : BitVec 32
  reserved : BitVec 32
  deriving DecidableEq

/-- The row is no waiter. -/
def Record.metadata (r : Record) : Bool :=
  r.reserved &&& (STATE ||| JOURNAL ||| TARGET ||| SOURCE_JOURNAL) != 0

def Record.piWait (r : Record) : Bool := r.reserved &&& WAIT != 0

def Record.piSource (r : Record) : Bool := r.reserved &&& REQUEUE != 0

def Record.specialWait (r : Record) : Bool := r.piWait || r.piSource

/-- A waiter of a futex that is not PI. -/
def Record.ordinary (r : Record) : Bool := !r.metadata && !r.specialWait

/-- The row is of no concern to a wake of `key` with `bitset`. -/
def Record.passes (r : Record) (key : Key) (bitset : BitVec 32) : Bool :=
  r.metadata || r.key != key || (!r.specialWait && r.bitset &&& bitset == 0)

/-! ## The host -/

/-- The calls into the host, on what they depend on: the liveness test of a record's
thread, the opening of its event, and setting the opened event. -/
structure Native (W : Type) where
  dead : Record → W → Bool × W
  openEvent : Record → W → Except Int Unit × W
  setEvent : Record → W → Except Int Unit × W

/-- What became of the attempt to take a record out of the table. -/
inductive Attempt where
  | gone
  | failed (errno : Int)
  | taken

variable {W : Type}

/-- Wake one record: a dead one is dropped, also when its event is found missing. -/
def Native.signal (n : Native W) (r : Record) (w : W) : Attempt × W :=
  match n.dead r w with
  | (true, w) => (.gone, w)
  | (false, w) =>
    match n.openEvent r w with
    | (.error e, w) =>
      match n.dead r w with
      | (true, w) => (.gone, w)
      | (false, w) => (.failed e, w)
    | (.ok _, w) =>
      match n.setEvent r w with
      | (.error e, w) => (.failed e, w)
      | (.ok _, w) => (.taken, w)

/-- Move one record: a dead one is dropped. -/
def Native.move (n : Native W) (r : Record) (w : W) : Attempt × W :=
  match n.dead r w with
  | (true, w) => (.gone, w)
  | (false, w) => (.taken, w)

/-! ## Passes over the table -/

/-- How a pass over the table ends: its result, the table, the rows it took out as
woken or moved and as dead, in their order, and the world. -/
structure Pass (W : Type) where
  result : Except Int Nat
  table : List Record
  taken : List Record
  dropped : List Record
  world : W

/-- The pass leaves `r` in place. -/
def Pass.keep (r : Record) (p : Pass W) : Pass W := { p with table := r :: p.table }

def Pass.take (r : Record) (p : Pass W) : Pass W := { p with taken := r :: p.taken }

def Pass.drop (r : Record) (p : Pass W) : Pass W := { p with dropped := r :: p.dropped }

/-- What a pass does: the rows it goes by, how it takes a row, and how many. -/
structure Order (W : Type) where
  passes : Record → Bool
  attempt : Record → W → Attempt × W
  count : Nat

/-- The plain loop from the row its index is at: the rows from there on, and how many
it has taken. -/
def sweep (o : Order W) : List Record → Nat → W → Pass W
  | [], taken, w => ⟨.ok taken, [], [], [], w⟩
  | r :: rows, taken, w =>
    if taken < o.count then
      if o.passes r then (sweep o rows taken w).keep r
      else if r.specialWait then ⟨.error EINVAL, r :: rows, [], [], w⟩
      else
        match o.attempt r w with
        | (.gone, w) => (sweep o rows taken w).drop r
        | (.failed e, w) => ⟨.error e, r :: rows, [], [], w⟩
        | (.taken, w) => (sweep o rows (taken + 1) w).take r
    else ⟨.ok taken, r :: rows, [], [], w⟩

/-- `Vec::retain` with a closure that has state: the verdict on each row in turn, and
the state it leaves. -/
def retain {S : Type} (keeps : S → Record → Bool × S) : S → List Record → List Record × S
  | s, [] => ([], s)
  | s, r :: rows =>
    match keeps s r with
    | (true, s) => let (kept, s) := retain keeps s rows; (r :: kept, s)
    | (false, s) => retain keeps s rows

/-- What the closure of a compaction has captured. -/
structure Capture (W : Type) where
  error : Option Int
  count : Nat
  taken : List Record
  dropped : List Record
  world : W

def Capture.finish (kept : List Record) (s : Capture W) : Pass W :=
  ⟨match s.error with
    | some e => .error e
    | none => .ok s.count, kept, s.taken, s.dropped, s.world⟩

/-- The closure of a compaction. -/
def sweepKeeps (o : Order W) (s : Capture W) (r : Record) : Bool × Capture W :=
  if s.error.isSome || o.count ≤ s.count || o.passes r then (true, s)
  else if r.specialWait then (true, { s with error := some EINVAL })
  else
    match o.attempt r s.world with
    | (.gone, w) => (false, { s with dropped := s.dropped ++ [r], world := w })
    | (.failed e, w) => (true, { s with error := some e, world := w })
    | (.taken, w) =>
      (false, { s with count := s.count + 1, taken := s.taken ++ [r], world := w })

/-- The compaction of the table. -/
def sweepCompact (o : Order W) (table : List Record) (w : W) : Pass W :=
  let (kept, s) := retain (sweepKeeps o) ⟨none, 0, [], [], w⟩ table
  s.finish kept

def selectOrder (n : Native W) (key : Key) (count : Nat) (bitset : BitVec 32) : Order W :=
  ⟨fun r => r.passes key bitset, n.signal, count⟩

/-- `Shared::select`, with `select_compact` as its optimized form. -/
def select (optimized : Bool) (n : Native W) (key : Key) (count : Nat) (bitset : BitVec 32)
    (table : List Record) (w : W) : Pass W :=
  if count = 0 then ⟨.ok 0, table, [], [], w⟩
  else if optimized then sweepCompact (selectOrder n key count bitset) table w
  else sweep (selectOrder n key count bitset) table 0 w

/-! ## Transactions -/

/-- A copy of the table, and whether it is to be committed. -/
structure Transaction where
  records : List Record
  dirty : Bool

/-- The committed table when the transaction ends. -/
def Transaction.commit (t : Transaction) (table : List Record) : List Record :=
  if t.dirty then t.records else table

def Transaction.wake (t : Transaction) (optimized : Bool) (n : Native W) (key : Key)
    (count : Nat) (bitset : BitVec 32) (w : W) : Transaction × Pass W :=
  if count = 0 then (t, ⟨.ok 0, t.records, [], [], w⟩)
  else
    let p := select optimized n key count bitset t.records w
    (⟨p.table, true⟩, p)

def transferOrder (n : Native W) (source : Key) (count : Nat) : Order W :=
  ⟨fun r => r.metadata || r.key != source, n.move, count⟩

/-- The transferred rows join the end of the table under their new key. -/
def Pass.rejoin (target : Key) (p : Pass W) : List Record :=
  p.table ++ p.taken.map fun r => { r with key := target }

/-- `Transaction::transfer`.  The plain loop marks the transaction with every row it
takes out, the compaction with a dead row and by the number moved. -/
def Transaction.transfer (t : Transaction) (optimized : Bool) (n : Native W)
    (source target : Key) (count : Nat) (w : W) : Transaction × Pass W :=
  if optimized then
    let p := sweepCompact (transferOrder n source count) t.records w
    (⟨p.rejoin target, t.dirty || !p.dropped.isEmpty || !p.taken.isEmpty⟩, p)
  else
    let p := sweep (transferOrder n source count) t.records 0 w
    (⟨p.rejoin target, t.dirty || !(p.dropped ++ p.taken).isEmpty⟩, p)

/-- `Transaction::cancel`: whether the token was still queued. -/
def Transaction.cancel (t : Transaction) (token : Nat) : Bool × Transaction :=
  let kept := t.records.filter fun r => r.metadata || r.token != token
  let removed := kept.length != t.records.length
  (removed, ⟨kept, t.dirty || removed⟩)

/-! ## Guarded sections -/

/-- How a guarded section ends: its result, the committed table, the rows it woke, the
rows it moved, the rows it dropped as dead, and the world. -/
structure Section (W : Type) where
  result : Except Int Nat
  table : List Record
  woken : List Record
  moved : List Record
  dropped : List Record
  world : W

/-- The section found nothing to do. -/
def Section.idle (table : List Record) (w : W) : Section W := ⟨.ok 0, table, [], [], [], w⟩

def wake (optimized : Bool) (n : Native W) (key : Key) (count : Nat) (bitset : BitVec 32)
    (table : List Record) (w : W) : Section W :=
  if optimized && !table.any fun r => r.key == key && r.bitset &&& bitset != 0 then
    .idle table w
  else
    let p := select optimized n key count bitset table w
    -- A late error does not roll back the wakes before it.
    ⟨p.result, p.table, p.taken, [], p.dropped, p.world⟩

/-- `requeue`: a comparison is the value of the word and the expected one. -/
def requeue (optimized : Bool) (n : Native W) (key destination : Key) (count moveCount : Nat)
    (comparison : Option (BitVec 32 × BitVec 32)) (table : List Record) (w : W) : Section W :=
  if comparison.any fun c => c.1 != c.2 then ⟨.error EAGAIN, table, [], [], [], w⟩
  else if optimized && !table.any fun r => r.key == key && !r.metadata then .idle table w
  else
    let (t, p) := Transaction.wake ⟨table, false⟩ optimized n key count (MATCH_ANY) w
    match p.result with
    | .error e => ⟨.error e, t.commit table, p.taken, [], p.dropped, p.world⟩
    | .ok woken =>
      let (t, q) := t.transfer optimized n key destination moveCount p.world
      ⟨q.result.map fun moved => woken + moved, t.commit table, p.taken, q.taken,
        p.dropped ++ q.dropped, q.world⟩

/-- `wake_op`: `operation` is the result of the operation on the second word. -/
def wakeOp (optimized : Bool) (n : Native W) (key : Key) (count : Nat) (destination : Key)
    (count2 : Nat) (operation : Except Int Bool) (table : List Record) (w : W) : Section W :=
  match operation with
  | .error e => ⟨.error e, table, [], [], [], w⟩
  | .ok second =>
    if optimized && !table.any fun r => r.key == key || (second && r.key == destination) then
      .idle table w
    else
      let p := select optimized n key count (MATCH_ANY) table w
      match p.result with
      | .error e => ⟨.error e, p.table, p.taken, [], p.dropped, p.world⟩
      | .ok first =>
        if second then
          let q := select optimized n destination count2 (MATCH_ANY) p.table p.world
          ⟨q.result.map fun more => first + more, q.table, p.taken ++ q.taken, [],
            p.dropped ++ q.dropped, q.world⟩
        else ⟨.ok first, p.table, p.taken, [], p.dropped, p.world⟩

end Kinakaze.Futex
