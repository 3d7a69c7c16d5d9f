import Kinakaze.Library.Coalesce
import Kinakaze.Library.Search
import Mathlib.Data.List.Sort
import Mathlib.Data.Prod.Lex

/-!
# The record-lock table

All hosted processes share one table of advisory byte-range locks and of the
threads that wait for one.  A lock belongs to a process or to an open file
description.
-/

namespace Kinakaze.RecordLock

open Library

/-- The errors a lock request ends with; `win32` stands for what
`errno_from_win32` makes of a failed call, none of which is `EDEADLK`. -/
inductive Errno where
  | EIO
  | EBADF
  | EAGAIN
  | EINVAL
  | EDEADLK
  | ENOLCK
  | win32 (error : Nat)
  deriving DecidableEq

def LOCK_CAPACITY : Nat := 32768
def WAITER_CAPACITY : Nat := 4096

/-- `i64::MAX`. -/
def OFF_MAX : Nat := 2 ^ 63 - 1

/-- A range of bytes, both endpoints included. -/
@[ext]
structure Range where
  start : Nat
  stop : Nat
  ordered : start ≤ stop
  bounded : stop ≤ OFF_MAX
  deriving DecidableEq

def Range.new (start stop : Nat) : Except Errno Range :=
  if h : start ≤ stop ∧ stop ≤ OFF_MAX then .ok ⟨start, stop, h.1, h.2⟩ else .error .EINVAL

def Range.overlaps (r other : Range) : Prop :=
  r.start ≤ other.stop ∧ other.start ≤ r.stop

instance (r other : Range) : Decidable (r.overlaps other) :=
  inferInstanceAs (Decidable (_ ∧ _))

/-- `byte` lies in the range. -/
def Range.covers (r : Range) (byte : Nat) : Prop :=
  r.start ≤ byte ∧ byte ≤ r.stop

instance (r : Range) (byte : Nat) : Decidable (r.covers byte) :=
  inferInstanceAs (Decidable (_ ∧ _))

inductive Kind where
  | read
  | write
  deriving DecidableEq

/-- A file; `id` is the number the sixteen bytes spell, the first the most
significant, so that comparing the bytes is comparing the numbers. -/
structure Inode where
  backing : Nat
  volume : Nat
  id : Nat
  deriving DecidableEq

structure Owner where
  pid : Nat
  pidNamespace : Nat
  born : Nat
  deriving DecidableEq

/-- The owner that stands for an open file description. -/
def Owner.description (id : Nat) : Owner := ⟨0, 0, id⟩

/-- A lock held or wanted.  The `reserved` word is always zero and left out. -/
@[ext]
structure Record where
  inode : Inode
  owner : Owner
  range : Range
  kind : Kind
  deriving DecidableEq

/-- The inode and the owner, compared field by field. -/
def Record.place (r : Record) : List Nat :=
  [r.inode.backing, r.inode.volume, r.inode.id, r.owner.pid, r.owner.pidNamespace, r.owner.born]

/-- `(r.inode, r.owner, r.range.start)`. -/
def Record.key (r : Record) : List Nat ×ₗ Nat := toLex (r.place, r.range.start)

def Record.conflicts (r wanted : Record) : Prop :=
  r.inode = wanted.inode ∧ r.owner ≠ wanted.owner ∧ r.range.overlaps wanted.range ∧
    (r.kind = .write ∨ wanted.kind = .write)

instance (r wanted : Record) : Decidable (r.conflicts wanted) :=
  inferInstanceAs (Decidable (_ ∧ _))

/-- A thread, by its host process and its number. -/
structure Thread where
  host : Nat
  thread : Nat
  deriving DecidableEq

/-- A blocked request.  The wait event is named by the thread. -/
structure Waiter where
  wanted : Record
  process : Owner
  thread : Thread
  deriving DecidableEq

structure State where
  locks : List Record
  waiters : List Waiter
  dirty : Bool
  wake : Bool

namespace State

def conflict (s : State) (wanted : Record) : Option Record :=
  s.locks.find? fun r => decide (r.conflicts wanted)

/-! ## Replacing an owner's bytes -/

/-- What is left of an old record: all of it, or what sticks out of the wanted
range on either side. -/
def trim (wanted old : Record) : List Record :=
  if old.inode ≠ wanted.inode ∨ old.owner ≠ wanted.owner ∨ ¬ old.range.overlaps wanted.range then
    [old]
  else
    (if h : old.range.start < wanted.range.start then
      [{ old with range :=
          ⟨old.range.start, wanted.range.start - 1, Nat.le_sub_one_of_lt h,
            Nat.le_trans (Nat.sub_le _ _) (Nat.le_trans wanted.range.ordered wanted.range.bounded)⟩ }]
    else []) ++
    (if h : wanted.range.stop < old.range.stop then
      [{ old with range := ⟨wanted.range.stop + 1, old.range.stop, h, old.range.bounded⟩ }]
    else [])

/-- `record` continues `last`. -/
def touches (last record : Record) : Prop :=
  last.inode = record.inode ∧ last.owner = record.owner ∧ last.kind = record.kind ∧
    record.range.start ≤ last.range.stop + 1

instance : DecidableRel touches := fun last record =>
  inferInstanceAs (Decidable (_ ∧ _))

/-- `last` extended to the end of `record`. -/
def extend (last record : Record) : Record :=
  { last with range :=
      ⟨last.range.start, max last.range.stop record.range.stop,
        Nat.le_trans last.range.ordered (Nat.le_max_left _ _),
        Nat.max_le.mpr ⟨last.range.bounded, record.range.bounded⟩⟩ }

/-- The pieces of the new table, before they are sorted. -/
def replacement (locks : List Record) (wanted : Record) (unlock : Bool) : List Record :=
  locks.flatMap (trim wanted) ++ if unlock then [] else [wanted]

/-- The new table. -/
def merged (locks : List Record) (wanted : Record) (unlock : Bool) : List Record :=
  coalesce touches extend ((replacement locks wanted unlock).insertionSort fun a b => a.key ≤ b.key)

/-- Replace only this owner's covered bytes.  Bounds of ranges stay below
`OFF_MAX`, so the sums in `trim` and `touches` do not overflow. -/
def replace (s : State) (wanted : Record) (unlock : Bool) : Except Errno Unit × State :=
  let merged := merged s.locks wanted unlock
  if LOCK_CAPACITY < merged.length then (.error .ENOLCK, s)
  else
    let wake := s.wake || decide (s.locks ≠ merged)
    (.ok (), { s with locks := merged, wake := wake, dirty := s.dirty || wake })

/-! ## Waiters -/

def removeWaiter (s : State) (waiter : Waiter) : State :=
  let kept := s.waiters.filter fun candidate => candidate.thread ≠ waiter.thread
  { s with waiters := kept, dirty := s.dirty || decide (s.waiters.length ≠ kept.length) }

/-- The owners of the records in the way of `wanted`. -/
def holders (s : State) (wanted : Record) : List Owner :=
  (s.locks.filter fun r => r.conflicts wanted).map Record.owner

/-- The owners that the published waiters of `owner` wait for. -/
def waitsOn (s : State) (owner : Owner) : List Owner :=
  (s.waiters.filter fun w => w.wanted.owner = owner).flatMap fun w => s.holders w.wanted

/-- The owners with a published waiter. -/
def waiting (s : State) : Finset Owner := (s.waiters.map fun w => w.wanted.owner).toFinset

theorem waitsOn_eq_nil (s : State) (owner : Owner) (h : owner ∉ s.waiting) :
    s.waitsOn owner = [] := by
  have hnone : s.waiters.filter (fun w => w.wanted.owner = owner) = [] := by
    apply List.filter_eq_nil_iff.mpr
    intro w hw
    simp only [waiting, List.mem_toFinset, List.mem_map, not_exists, not_and] at h
    simpa using h w hw
  simp only [waitsOn, hnone, List.flatMap_nil]

/-- The search of `would_deadlock`, `fuel` owners at most.  The end of the
vector `pending` is the head of the list. -/
def deadlockSearch (s : State) (wanted : Record) (fuel : Nat) : Option Bool :=
  search s.waitsOn wanted.owner fuel (s.holders wanted).reverse []

/-- A number of owners after which the search has ended. -/
def deadlockFuel (s : State) (wanted : Record) : Nat :=
  potential s.waitsOn s.waiting (s.holders wanted).reverse []

theorem deadlockSearch_isSome (s : State) (wanted : Record) (fuel : Nat)
    (hfuel : s.deadlockFuel wanted ≤ fuel) : (s.deadlockSearch wanted fuel).isSome :=
  search_terminates s.waiting s.waitsOn_eq_nil fuel _ [] hfuel

def wouldDeadlock (s : State) (wanted : Record) : Bool :=
  (s.deadlockSearch wanted (s.deadlockFuel wanted)).get
    (s.deadlockSearch_isSome wanted _ (Nat.le_refl _))

end State

end Kinakaze.RecordLock
