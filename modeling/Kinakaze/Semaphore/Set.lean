import Mathlib.Algebra.Ring.Nat
import Mathlib.Algebra.Ring.Int.Defs
import Kinakaze.Library.FirstMatch
import Mathlib.Algebra.BigOperators.Group.List.Basic

/-!
# A semaphore set

All processes that use a set share its header: the values, the last process to operate
on each semaphore, and a table of `SEM_UNDO` debts.  `semop` applies an array of
operations to all of the set or to nothing of it, and the debts of a process that died
are settled by whoever would block on them.
-/

namespace Kinakaze.Semaphore

open Kinakaze.Library

def SEMVMX : Int := 32767
def SEMMSL : Nat := 250
def SEMOPM : Nat := 500
def UNDO_SLOTS : Nat := 128

def EIO : Int := 5
def EAGAIN : Int := 11
def ENOSPC : Int := 28
def ERANGE : Int := 34

def I32_MAX : Int := 2147483647
def I32_MIN : Int := -2147483648

def SEM_UNDO : BitVec 16 := 0x1000
def IPC_NOWAIT : BitVec 16 := 0x800

/-! ## Debts -/

/-- Whose debt it is: a process number, which is never zero, the birth of the process,
and whether both are Linux's or those of the host. -/
structure Owner where
  pid : Nat
  started : Nat
  managed : Nat
  pid_pos : 0 < pid
  deriving DecidableEq

/-- A slot of the table; one with `pid` zero is free. -/
structure UndoEntry where
  pid : Nat
  semNum : Nat
  started : Nat
  adjust : Int
  managed : Nat

/-- The slot holds a debt of `o`. -/
def UndoEntry.owedBy (e : UndoEntry) (o : Owner) : Bool :=
  e.pid == o.pid && e.started == o.started && e.managed == o.managed

/-- The slot holds the debt of `o` on semaphore `s`. -/
def UndoEntry.owes (e : UndoEntry) (o : Owner) (s : Nat) : Bool := e.owedBy o && e.semNum == s

/-- What `o` owes semaphore `s`. -/
def debt (undo : List UndoEntry) (o : Owner) (s : Nat) : Int :=
  ((undo.filter fun e => e.owes o s).map UndoEntry.adjust).sum

/-- `i32::saturating_add`, on the exact sum. -/
def saturate (x : Int) : Int := max I32_MIN (min I32_MAX x)

/-- An adjustment that cancels out frees its slot. -/
def UndoEntry.add (delta : Int) (e : UndoEntry) : UndoEntry :=
  let adjust := saturate (e.adjust + delta)
  { e with adjust, pid := if adjust = 0 then 0 else e.pid }

def Owner.entry (o : Owner) (s : Nat) (delta : Int) : UndoEntry :=
  { pid := o.pid, semNum := s, started := o.started, adjust := delta, managed := o.managed }

/-- `record_undo` for the caller `o`; `none` is `ENOSPC`. -/
def recordUndo (o : Owner) (s : Nat) (delta : Int) (undo : List UndoEntry) :
    Option (List UndoEntry) :=
  match updateFirst (fun e => e.owes o s) (UndoEntry.add delta) undo with
  | some undo => some undo
  | none =>
    if delta = 0 then some undo
    else updateFirst (fun e => e.pid == 0) (fun _ => o.entry s delta) undo

/-! ## Operations -/

/-- `struct sembuf`. -/
structure Sembuf where
  semNum : Nat
  semOp : BitVec 16
  semFlg : BitVec 16

def Sembuf.delta (op : Sembuf) : Int := op.semOp.toInt

/-- The operation leaves a debt. -/
def Sembuf.undoes (op : Sembuf) : Bool := op.semFlg &&& SEM_UNDO != 0 && op.semOp != 0

/-- The header of a set; an array of `SEMMSL` is a function of the index. -/
structure SemHeader where
  values : Nat → Int
  lastPid : Nat → Int
  undo : List UndoEntry
  otime : Int
  ctime : Int

inductive Attempt where
  | applied (changed : Bool)
  | blocked (index : Nat)
  | failed (errno : Int)
  deriving DecidableEq

/-- The test of the operations from number `index` on, against a copy of the values. -/
def feasible : Nat → (Nat → Int) → Bool → List Sembuf → Except Attempt ((Nat → Int) × Bool)
  | _, candidate, changed, [] => .ok (candidate, changed)
  | index, candidate, changed, op :: ops =>
    let current := candidate op.semNum
    if op.delta = 0 then
      if current ≠ 0 then .error (.blocked index)
      else feasible (index + 1) candidate changed ops
    else
      let next := current + op.delta
      if SEMVMX < next then .error (.failed ERANGE)
      else if next < 0 then .error (.blocked index)
      else feasible (index + 1) (Function.update candidate op.semNum next) true ops

/-- The debts an array leaves, in its order. -/
def debts (ops : List Sembuf) : List (Nat × Int) :=
  (ops.filter Sembuf.undoes).map fun op => (op.semNum, -op.delta)

/-- Record debts until one does not fit: the table, those recorded before, and how it
ended. -/
def recordAll (owner : Except Int Owner) : List (Nat × Int) → List (Nat × Int) → List UndoEntry →
      List UndoEntry × List (Nat × Int) × Option Int
  | [], recorded, undo => (undo, recorded, none)
  | (s, delta) :: rest, recorded, undo =>
    match owner with
    | .error errno => (undo, recorded, some errno)
    | .ok o =>
      match recordUndo o s delta undo with
      | none => (undo, recorded, some ENOSPC)
      | some undo => recordAll owner rest (recorded ++ [(s, delta)]) undo

/-- The unwind: every recorded debt is taken back, in the order it was recorded, and
errors are dropped. -/
def unwind (owner : Except Int Owner) (recorded : List (Nat × Int)) (undo : List UndoEntry) :
    List UndoEntry :=
  recorded.foldl (fun undo (s, delta) =>
    match owner with
    | .error _ => undo
    | .ok o => (recordUndo o s (-delta) undo).getD undo) undo

/-- The commit of `try_apply`. -/
def SemHeader.publish (h : SemHeader) (pid now : Int) (candidate : Nat → Int)
    (undo : List UndoEntry) (ops : List Sembuf) : SemHeader :=
  { h with
    values := candidate
    undo := undo
    lastPid := ops.foldl (fun lastPid op => Function.update lastPid op.semNum pid) h.lastPid
    otime := now }

/-- `try_apply`, by the process `pid` at time `now` with the undo owner `owner`. -/
def tryApply (owner : Except Int Owner) (pid now : Int) (ops : List Sembuf) (h : SemHeader) :
    Attempt × SemHeader :=
  match feasible 0 h.values false ops with
  | .error attempt => (attempt, h)
  | .ok (candidate, changed) =>
    match recordAll owner (debts ops) [] h.undo with
    | (undo, recorded, some errno) =>
      (.failed errno, { h with undo := unwind owner recorded undo })
    | (undo, _, none) => (.applied changed, h.publish pid now candidate undo ops)

/-! ## Settling -/

/-- `i32` addition, and the clamp to the range of a value. -/
def settleValue (value adjust : Int) : Int :=
  max 0 (min SEMVMX ((value + adjust).bmod (2 ^ 32)))

/-- Settle the slots of `settles`: each is added to its semaphore and freed. -/
def settle (settles : UndoEntry → Bool) : List UndoEntry → (Nat → Int) →
    List UndoEntry × (Nat → Int)
  | [], values => ([], values)
  | e :: undo, values =>
    if settles e then
      let values :=
        if e.semNum < SEMMSL then
          Function.update values e.semNum (settleValue (values e.semNum) e.adjust)
        else values
      let (undo, values) := settle settles undo values
      ({ e with pid := 0, adjust := 0 } :: undo, values)
    else
      let (undo, values) := settle settles undo values
      (e :: undo, values)

def SemHeader.settle (h : SemHeader) (settles : UndoEntry → Bool) : SemHeader :=
  let (undo, values) := Semaphore.settle settles h.undo h.values
  { h with undo, values }

/-- `reclaim_dead_undo`: `dead` is what the liveness test says about the owner of an
occupied slot. -/
def reclaimDeadUndo (dead : UndoEntry → Bool) (h : SemHeader) : SemHeader :=
  h.settle fun e => e.pid != 0 && dead e

/-- What `reclaim_dead_undo` returns. -/
def reclaims (dead : UndoEntry → Bool) (h : SemHeader) : Bool :=
  h.undo.any fun e => e.pid != 0 && dead e

/-- `unshare_undo` on one set. -/
def unshareUndo (o : Owner) (h : SemHeader) : SemHeader := h.settle fun e => e.owedBy o

/-- `clear_undo`: the debts are dropped, on one semaphore or on all. -/
def clearUndo (semNum : Option Nat) (undo : List UndoEntry) : List UndoEntry :=
  undo.map fun e =>
    if e.pid ≠ 0 ∧ semNum.all (fun wanted => e.semNum = wanted) then
      { e with pid := 0, adjust := 0 }
    else e

end Kinakaze.Semaphore
