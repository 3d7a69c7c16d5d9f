import Kinakaze.Futex.Table

/-!
# The queue of a domain

Waiters join the shared table and leave it when a wake selects them, when they cancel
or when they are found dead.  A waiter learns that it was selected from the absence of
its token.
-/

namespace Kinakaze.Futex

def CAPACITY : Nat := 32768

/-! ## Room in the table -/

variable {W : Type}

/-- The tokens of the requeueing PI waiters that are dead. -/
def deadSources (n : Native W) : List Record → W → List Nat × W
  | [], w => ([], w)
  | r :: rows, w =>
    if r.piSource then
      match n.dead r w with
      | (true, w) => let (tokens, w) := deadSources n rows w; (r.token :: tokens, w)
      | (false, w) => deadSources n rows w
    else deadSources n rows w

/-- The row belongs to one of these sources. -/
def Record.ofSource (r : Record) (tokens : List Nat) : Bool :=
  tokens.contains r.token && (r.piSource || r.reserved &&& TARGET != 0)

/-- The closure of the full sweep; it notes the waiters it drops. -/
def reserveKeeps (n : Native W) (sources : List Nat) (s : List Record × W) (r : Record) :
    Bool × (List Record × W) :=
  if r.ofSource sources then (false, s)
  else if r.metadata || r.specialWait then (true, s)
  else
    match n.dead r s.2 with
    | (true, w) => (false, (s.1 ++ [r], w))
    | (false, w) => (true, (s.1, w))

/-- What is left of the table, the waiters that were dropped, the cursor and the world. -/
structure Reserved (W : Type) where
  table : List Record
  dropped : List Record
  cursor : BitVec 32
  world : W

/-- One row, which the cursor is at. -/
def sweepOne (n : Native W) (table : List Record) (cursor : BitVec 32) (w : W) : Reserved W :=
  match table[cursor.toNat % table.length]? with
  | none => ⟨table, [], cursor, w⟩
  | some r =>
    if r.piSource then
      match n.dead r w with
      | (true, w) => ⟨table.filter fun other => !other.ofSource [r.token], [], cursor + 1, w⟩
      | (false, w) => ⟨table, [], cursor + 1, w⟩
    else if r.ordinary then
      match n.dead r w with
      | (true, w) => ⟨table.eraseIdx (cursor.toNat % table.length), [r], cursor + 1, w⟩
      | (false, w) => ⟨table, [], cursor + 1, w⟩
    else ⟨table, [], cursor + 1, w⟩

/-- All rows. -/
def sweepAll (n : Native W) (table : List Record) (cursor : BitVec 32) (w : W) : Reserved W :=
  let (sources, w) := deadSources n table w
  let (table, s) := retain (reserveKeeps n sources) ([], w) table
  ⟨table, s.1, cursor, s.2⟩

/-- `Shared::reserve` up to its check of the capacity. -/
def reserve (optimized : Bool) (n : Native W) (table : List Record) (count : Nat)
    (cursor : BitVec 32) (w : W) : Reserved W :=
  if optimized && table.length + count ≤ CAPACITY then sweepOne n table cursor w
  else sweepAll n table cursor w

/-! ## Domains -/

/-- How a token left the table. -/
inductive Retirement where
  | selected
  | cancelled
  | dead
  deriving DecidableEq

/-- The thread of a waiter. -/
structure ParkIdentity where
  born : BitVec 64
  host : BitVec 32
  thread : BitVec 32

/-- The table, the token counter and the cursor of a domain, its futex words, the cell
`retired` of each waiter, and the world.  The rest is history: the rows that joined, the
tokens of `Waiter`s among them, how tokens left, and when each joined its current key. -/
structure Domain (W : Type) where
  table : List Record
  nextToken : BitVec 64
  cursor : BitVec 32
  words : Key → BitVec 32
  cells : Nat → Option Bool
  world : W
  issued : List Record
  waiters : List Nat
  retired : List (Nat × Retirement)
  joined : Nat → Nat
  clock : Nat

/-- `Shared::token`: zero is skipped; with the counter that follows. -/
def issueToken (next : BitVec 64) : Nat × BitVec 64 :=
  if next = 0 then (1, 2) else (next.toNat, next + 1)

/-- Commit the table that `reserve` has left. -/
def Domain.settle (d : Domain W) (r : Reserved W) : Domain W :=
  { d with
    table := r.table
    cursor := r.cursor
    world := r.world
    retired := d.retired ++ r.dropped.map fun r => (r.token, .dead) }

/-- Commit a new row at the end of the table. -/
def Domain.push (d : Domain W) (r : Record) : Domain W :=
  { d with
    table := d.table ++ [r]
    issued := d.issued ++ [r]
    joined := Function.update d.joined r.token d.clock
    clock := d.clock + 1 }

/-- The sections that wake or move waiters. -/
inductive Call where
  | wake (key : Key) (count : Nat) (bitset : BitVec 32)
  | transactionWake (key : Key) (count : Nat) (bitset : BitVec 32)
  | requeue (key destination : Key) (count moveCount : Nat) (expected : Option (BitVec 32))
  | wakeOp (key : Key) (count : Nat) (destination : Key) (count2 : Nat)
      (operation : Except Int (BitVec 32 → BitVec 32 × Bool))
  | transfer (source target : Key) (count : Nat)

/-- The transaction of one wake. -/
def Transaction.wakeSection (optimized : Bool) (n : Native W) (key : Key) (count : Nat)
    (bitset : BitVec 32) (table : List Record) (w : W) : Section W :=
  let (t, p) := Transaction.wake ⟨table, false⟩ optimized n key count bitset w
  ⟨p.result, t.commit table, p.taken, [], p.dropped, p.world⟩

/-- The transaction of one transfer. -/
def Transaction.transferSection (optimized : Bool) (n : Native W) (source target : Key)
    (count : Nat) (table : List Record) (w : W) : Section W :=
  let (t, p) := Transaction.transfer ⟨table, false⟩ optimized n source target count w
  ⟨p.result, t.commit table, [], p.taken, p.dropped, p.world⟩

def Call.section (c : Call) (optimized : Bool) (n : Native W) (d : Domain W) : Section W :=
  match c with
  | .wake key count bitset => Futex.wake optimized n key count bitset d.table d.world
  | .transactionWake key count bitset =>
    Transaction.wakeSection optimized n key count bitset d.table d.world
  | .requeue key destination count moveCount expected =>
    Futex.requeue optimized n key destination count moveCount
      (expected.map fun e => (d.words key, e)) d.table d.world
  | .wakeOp key count destination count2 operation =>
    Futex.wakeOp optimized n key count destination count2
      (operation.map fun f => (f (d.words destination)).2) d.table d.world
  | .transfer source target count =>
    Transaction.transferSection optimized n source target count d.table d.world

/-- `wake_op` changes its second word. -/
def Call.store (c : Call) (words : Key → BitVec 32) : Key → BitVec 32 :=
  match c with
  | .wakeOp _ _ destination _ (.ok f) =>
    Function.update words destination (f (words destination)).1
  | _ => words

/-- Commit what a section has done to the table. -/
def Domain.commit (d : Domain W) (s : Section W) : Domain W :=
  { d with
    table := s.table
    world := s.world
    retired := d.retired ++ (s.woken.map fun r => (r.token, .selected)) ++
      s.dropped.map fun r => (r.token, .dead)
    joined := fun token =>
      let moved := s.moved.map (·.token)
      if token ∈ moved then d.clock + moved.idxOf token else d.joined token
    clock := d.clock + s.moved.length }

/-! ## Steps -/

inductive Action (W : Type) where
  /-- The guest stores to a futex word. -/
  | store (key : Key) (value : BitVec 32)
  | enqueue (optimized : Bool) (load : Except Int Key) (expected bitset : BitVec 32)
      (who : Except Int ParkIdentity) (event : Except Int Unit)
  | appendPrivate (optimized : Bool) (key : Key) (who : ParkIdentity) (bitset : BitVec 32)
  | call (optimized : Bool) (c : Call)
  | cancel (token : Nat)
  | finish (token : Nat) (cancel : Bool)
  /-- A section of a PI futex: the waiters of other futexes stay. -/
  | foreign (table : List Record) (nextToken : BitVec 64) (world : W)

/-- What a step answers. -/
inductive Answer where
  | none
  | token (result : Except Int Nat)
  | count (result : Except Int Nat)
  | flag (value : Bool)
  deriving DecidableEq

def Domain.enqueue (optimized : Bool) (n : Native W) (d : Domain W) (load : Except Int Key)
    (expected bitset : BitVec 32) (who : Except Int ParkIdentity) (event : Except Int Unit) :
    Domain W × Answer :=
  match load with
  | .error e => (d, .token (.error e))
  | .ok key =>
    if d.words key ≠ expected then (d, .token (.error EAGAIN))
    else
      let r := reserve optimized n d.table 1 d.cursor d.world
      -- An error does not commit what `reserve` has dropped.
      let d' := { d with cursor := r.cursor, world := r.world }
      if CAPACITY < r.table.length + 1 then (d', .token (.error ENOMEM))
      else
        let (token, nextToken) := issueToken d.nextToken
        match who, event with
        | .ok who, .ok _ =>
          ({ d.settle r with nextToken, waiters := d.waiters ++ [token] }.push
            ⟨key, token, who.born, who.host, who.thread, bitset, 0⟩, .token (.ok token))
        | .error e, _ => ({ d' with nextToken }, .token (.error e))
        | .ok _, .error e => ({ d' with nextToken }, .token (.error e))

/-- `Transaction::reserve` and `Transaction::append_private`. -/
def Domain.appendPrivate (optimized : Bool) (n : Native W) (d : Domain W) (key : Key)
    (who : ParkIdentity) (bitset : BitVec 32) : Domain W × Answer :=
  let r := reserve optimized n d.table 1 d.cursor d.world
  if CAPACITY < r.table.length + 1 then
    ({ d with cursor := r.cursor, world := r.world }, .token (.error ENOMEM))
  else
    let (token, nextToken) := issueToken d.nextToken
    ({ d.settle r with nextToken }.push
      ⟨key, token, who.born, who.host, who.thread, bitset, PRIVATE_PARK⟩, .token (.ok token))

def Domain.cancel (d : Domain W) (token : Nat) : Domain W × Answer :=
  let (removed, t) := Transaction.cancel ⟨d.table, false⟩ token
  ({ d with
      table := t.commit d.table
      retired := if removed then d.retired ++ [(token, .cancelled)] else d.retired },
    .flag removed)

/-- The row of a token. -/
def Record.queued (token : Nat) (r : Record) : Bool := !r.metadata && r.token == token

/-- `Waiter::finish`: whether the waiter was selected. -/
def Domain.finish (d : Domain W) (token : Nat) (cancel : Bool) : Domain W × Answer :=
  match d.cells token with
  | some woken => (d, .flag woken)
  | none =>
    if d.table.any (Record.queued token) then
      if cancel then
        ({ d with
            table := d.table.eraseP (Record.queued token)
            cells := Function.update d.cells token (some false)
            retired := d.retired ++ [(token, .cancelled)] }, .flag false)
      else (d, .flag false)
    else ({ d with cells := Function.update d.cells token (some true) }, .flag true)

def Domain.act (n : Native W) (d : Domain W) : Action W → Domain W × Answer
  | .store key value => ({ d with words := Function.update d.words key value }, .none)
  | .enqueue optimized load expected bitset who event =>
    d.enqueue optimized n load expected bitset who event
  | .appendPrivate optimized key who bitset => d.appendPrivate optimized n key who bitset
  | .call optimized c =>
    let s := c.section optimized n d
    ({ d.commit s with words := c.store d.words }, .count s.result)
  | .cancel token => d.cancel token
  | .finish token cancel => d.finish token cancel
  | .foreign table nextToken world => ({ d with table, nextToken, world }, .none)

def Domain.step (n : Native W) (d : Domain W) (a : Action W) : Domain W := (d.act n a).1

/-- A new domain. -/
def Domain.initial (words : Key → BitVec 32) (world : W) : Domain W :=
  ⟨[], 1, 0, words, fun _ => none, world, [], [], [], fun _ => 0, 0⟩

end Kinakaze.Futex
