import Kinakaze.Library.Run
import Kinakaze.Library.Storage
import Kinakaze.Verity.Law

/-!
# Enabling fs-verity on a file

`fs/verity/transaction.rs` and the recovery in `fs/verity.rs`: the tree is written behind the data,
and a record beside the file says how far the transaction is. A call may fail wherever it reads,
writes or flushes, and a write that fails may have been made.
-/

namespace Kinakaze.Verity.Transaction

open Library Descriptor

/-! ## The file and its record -/

inductive Phase where
  | preparing
  | enabled
  | built
  deriving DecidableEq

deriving instance DecidableEq for Descriptor

structure Record where
  phase : Phase
  transaction : Nat
  descriptor : Descriptor
  treeOffset : Nat
  treeSize : Nat

structure Disk where
  length : Nat
  byte : Nat → BitVec 8
  record : Option Record

/-- One byte is written, the length is set, or the record is replaced. -/
inductive Change where
  | write (offset : Nat) (value : BitVec 8)
  | setLength (length : Nat)
  | record (record : Option Record)

def Disk.apply (d : Disk) : Change → Disk
  | .write offset value =>
    { d with length := max d.length (offset + 1), byte := Function.update d.byte offset value }
  | .setLength length =>
    { d with length := length, byte := fun i => if i < length then d.byte i else 0 }
  | .record record => { d with record := record }

abbrev Volume := Storage Disk Change

/-- `Record::with_transaction`. -/
def makeRecord (phase : Phase) (transaction : Nat) (descriptor : Descriptor) :
    Except Int Record := do
  let block := descriptor.blockSize
  let treeOffset := (descriptor.dataSize + (block - 1)) / block * block
  let treeSize ← descriptor.treeSize
  if 2 ^ 63 - 1 < treeOffset + treeSize then .error EOVERFLOW
  else .ok ⟨phase, transaction, descriptor, treeOffset, treeSize⟩

/-- `authoritative_size`. -/
def Disk.size (d : Disk) : Nat :=
  match d.record with
  | some record => record.descriptor.dataSize
  | none => d.length

/-- `built_storage_present`. -/
def Disk.present (d : Disk) (record : Record) : Bool :=
  let required :=
    if record.treeSize = 0 then record.descriptor.dataSize
    else record.treeOffset + record.treeSize
  required ≤ d.length

/-- The bytes of the data. -/
def Disk.data (d : Disk) (size : Nat) : Bytes := (List.range size).map d.byte

/-! ## Owners -/

/-- `TransactionState`. -/
inductive Status where
  | prepared
  | built
  | published
  | committed
  | aborted
  | indeterminate
  deriving DecidableEq

structure Owner where
  record : Record
  status : Status

structure State where
  volume : Volume
  /-- The transaction that has the file reserved against writers. -/
  owner : Option Owner := none

/-- How a write of the record or the length ends. -/
inductive Outcome where
  | done
  | failed (landed : Bool)
  deriving DecidableEq

def Outcome.landed : Outcome → Bool
  | .done => true
  | .failed landed => landed

/-- A change that may have failed. -/
def change (v : Volume) (c : Change) (o : Outcome) : Volume := if o.landed then v.add c else v

abbrev visible (v : Volume) : Disk := v.visible Disk.apply

abbrev flush (v : Volume) : Volume := v.flush Disk.apply

/-- Where a rollback fails, if it does. -/
structure Rollback where
  truncate : Outcome := .done
  flush : Bool := true
  delete : Outcome := .done
  finalFlush : Bool := true

/-- `recover_with`, and whether it was done to the end. -/
def recover (v : Volume) (record : Record) (r : Rollback) : Volume × Bool :=
  if record.phase = .enabled then (v, false)
  else
    let v := change v (.setLength record.descriptor.dataSize) r.truncate
    if r.truncate ≠ .done || !r.flush then (v, false)
    else
      let v := change (flush v) (.record none) r.delete
      if r.delete ≠ .done || !r.finalFlush then (v, false) else (flush v, true)

/-- `require_record`. -/
def required (v : Volume) (o : Owner) (phase : Phase) : Bool :=
  match (visible v).record with
  | none => false
  | some record => record.transaction = o.record.transaction ∧ record.phase = phase ∧
      record.descriptor = o.record.descriptor

/-- The bytes of the tree, in the order in which they are written. -/
def treeWrites (treeOffset : Nat) (log : List (Nat × Bytes)) : List Change :=
  log.flatMap fun block => block.2.mapIdx fun i value => .write (treeOffset + block.1 + i) value

/-! ## The calls -/

/-- Where `prepare` fails, if it does: `early` is anything before the record is written. -/
structure PrepareRun where
  early : Bool := false
  rollback : Rollback := {}
  interrupted : Bool := false
  write : Outcome := .done
  flush : Bool := true

/-- What an earlier transaction left is rolled back. -/
def settle (v : Volume) (r : Rollback) : Volume × Bool :=
  match (visible v).record with
  | none => (v, true)
  | some record => recover v record r

def prepare (s : State) (algorithm blockSize : Nat) (salt : Bytes) (transaction : Nat)
    (r : PrepareRun) : State :=
  if s.owner.isSome || r.early then s
  else
    let (v, ready) := settle s.volume r.rollback
    if !ready || r.interrupted then { s with volume := v }
    else
      match new algorithm blockSize salt (visible v).length >>= makeRecord .preparing transaction with
      | .error _ => { s with volume := v }
      | .ok record =>
        let v := change v (.record (some record)) r.write
        if r.write ≠ .done || !r.flush then { s with volume := v }
        else ⟨flush v, some ⟨record, .prepared⟩⟩

/-- `early` is anything before the record's phase is looked at. -/
structure ResumeRun where
  early : Bool := false
  flush : Bool := true

def resume (s : State) (expected : Nat) (r : ResumeRun) : State :=
  if s.owner.isSome || r.early then s
  else
    match (visible s.volume).record with
    | none => s
    | some record =>
      if record.transaction ≠ expected then s
      else
        match record.phase with
        | .preparing =>
          if r.flush then ⟨flush s.volume, some ⟨record, .prepared⟩⟩ else s
        | .built =>
          if (visible s.volume).present record then
            if r.flush then ⟨flush s.volume, some ⟨record, .built⟩⟩ else s
          else { s with owner := some ⟨record, .indeterminate⟩ }
        | .enabled => { s with owner := some ⟨record, .published⟩ }

/-- What an owner does to the volume. -/
abbrev Action := Owner × Volume

def reconcile (o : Owner) (v : Volume) (early flushed : Bool) : Action :=
  if early then (o, v)
  else
    match (visible v).record with
    | none =>
      if ¬ (o.status = .indeterminate ∨ o.status = .aborted) ∨
          (visible v).length ≠ o.record.descriptor.dataSize then (o, v)
      else if !flushed then (o, v)
      else ({ o with status := .aborted }, flush v)
    | some record =>
      if record.transaction ≠ o.record.transaction then (o, v)
      else
        let o : Owner := ⟨record, .indeterminate⟩
        match record.phase with
        | .preparing => if flushed then (⟨record, .prepared⟩, flush v) else (o, v)
        | .built =>
          if !(visible v).present record || !flushed then (o, v)
          else (⟨record, .built⟩, flush v)
        | .enabled => (⟨record, .published⟩, v)

/-- Where `build` fails, if it does: after so many bytes of the tree, or later. -/
structure BuildRun where
  early : Bool := false
  bytes : Option Nat := none
  treeFlush : Bool := true
  checked : Bool := true
  write : Outcome := .done
  flush : Bool := true

def buildTree (sha : Sha) (o : Owner) (v : Volume) (r : BuildRun) : Action :=
  if o.status ≠ .prepared || r.early || !required v o .preparing then (o, v)
  else
    let data := (visible v).data o.record.descriptor.dataSize
    match build sha o.record.descriptor (fileReader data) logWriter [] [] with
    | .error _ => (o, v)
    | .ok (descriptor, _, log) =>
      let writes := treeWrites o.record.treeOffset log
      match r.bytes with
      | some bytes => (o, v.addAll (writes.take bytes))
      | none =>
        let v := v.addAll writes
        if !r.treeFlush then (o, v)
        else
          let v := flush v
          if !r.checked || !required v o .preparing then (o, v)
          else
            let built := { o.record with phase := .built, descriptor := descriptor }
            let v := change v (.record (some built)) r.write
            if r.write ≠ .done then ({ o with status := .indeterminate }, v)
            else if !r.flush then (⟨built, .indeterminate⟩, v)
            else (⟨built, .built⟩, flush v)

/-- Where `commit` fails, if it does. When the write of the record fails it is read again. -/
structure CommitRun where
  early : Bool := false
  checked : Bool := true
  write : Outcome := .done
  reread : Bool := true
  flush : Bool := true

def commitFlush (o : Owner) (v : Volume) (r : CommitRun) : Action :=
  if r.flush then ({ o with status := .committed }, flush v) else (o, v)

def commit (o : Owner) (v : Volume) (r : CommitRun) : Action :=
  if r.early then (o, v)
  else if o.status = .built then
    if !required v o .built then (o, v)
    else if !(visible v).present o.record then ({ o with status := .indeterminate }, v)
    else if !r.checked then (o, v)
    else
      let enabled := { o.record with phase := .enabled }
      let v := change v (.record (some enabled)) r.write
      if r.write = .done then commitFlush ⟨enabled, .published⟩ v r
      else
        let o := { o with status := .indeterminate }
        match (visible v).record with
        | none => (o, v)
        | some record =>
          if r.reread ∧ record.transaction = o.record.transaction ∧
              record.descriptor = o.record.descriptor then
            (⟨record, match record.phase with
              | .built => .built
              | .enabled => .published
              | .preparing => .indeterminate⟩, v)
          else (o, v)
  else if o.status = .published then
    if !required v o .enabled then (o, v) else commitFlush o v r
  else (o, v)

/-- `early` is a failure to read the record, and `flush` is the flush when there is none. -/
structure AbortRun where
  early : Bool := false
  flush : Bool := true
  rollback : Rollback := {}

def abort (o : Owner) (v : Volume) (r : AbortRun) : Action :=
  if o.status = .published ∨ o.status = .committed ∨ o.status = .aborted ∨ r.early then (o, v)
  else
    match (visible v).record with
    | none =>
      if o.status ≠ .indeterminate ∨ (visible v).length ≠ o.record.descriptor.dataSize then (o, v)
      else if !r.flush then (o, v)
      else ({ o with status := .aborted }, flush v)
    | some record =>
      if record.transaction ≠ o.record.transaction then (o, v)
      else if record.phase = .enabled then (⟨record, .published⟩, v)
      else
        let (v, done) := recover v record r.rollback
        ({ o with status := if done then .aborted else .indeterminate }, v)

/-- `ensure_writable`. A writer that it would need is refused while there is an owner. -/
def ensureWritable (s : State) (early : Bool) (r : Rollback) : State :=
  if s.owner.isSome || early then s
  else
    match (visible s.volume).record with
    | none => s
    | some record => { s with volume := (recover s.volume record r).1 }

/-- What the owner of the reservation may call. -/
inductive OwnerCall where
  | build (r : BuildRun)
  | commit (r : CommitRun)
  | abort (r : AbortRun)
  | reconcile (early flushed : Bool)

def act (sha : Sha) (o : Owner) (v : Volume) : OwnerCall → Action
  | .build r => buildTree sha o v r
  | .commit r => commit o v r
  | .abort r => abort o v r
  | .reconcile early flushed => reconcile o v early flushed

inductive Call where
  | prepare (algorithm blockSize : Nat) (salt : Bytes) (transaction : Nat) (r : PrepareRun)
  | resume (expected : Nat) (r : ResumeRun)
  | owner (call : OwnerCall)
  | ensureWritable (early : Bool) (r : Rollback)
  /-- The owner dies; its reservation is closed. -/
  | die
  /-- Of what was not flushed, the marked changes are kept. -/
  | crash (kept : List Bool)

def State.step (sha : Sha) (s : State) : Call → State
  | .prepare algorithm blockSize salt transaction r =>
    prepare s algorithm blockSize salt transaction r
  | .resume expected r => resume s expected r
  | .owner call =>
    match s.owner with
    | none => s
    | some o =>
      let (o, v) := act sha o s.volume call
      ⟨v, some o⟩
  | .ensureWritable early r => ensureWritable s early r
  | .die => { s with owner := none }
  | .crash kept => ⟨s.volume.crash Disk.apply kept, none⟩

end Kinakaze.Verity.Transaction
