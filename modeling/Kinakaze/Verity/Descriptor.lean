import Kinakaze.Library.HashTree
import Kinakaze.Library.LittleEndian

/-!
# The fs-verity descriptor

`fs/verity/merkle.rs`: the 256 bytes that name the hash, the size of the data and the root of
the tree, where the tree's levels lie, and the check of one block of data.

The two hash functions are a parameter: what they are given is all that the tree depends on.
-/

namespace Kinakaze.Verity

open Library

abbrev Bytes := List (BitVec 8)

def EIO : Int := 5
def EINVAL : Int := 22
def EOVERFLOW : Int := 75

/-- A buffer of `size` bytes. -/
abbrev Block (size : Nat) := { bytes : Bytes // bytes.length = size }

/-- The package's hash functions. -/
structure Sha where
  sha256 : Bytes → Block 32
  sha512 : Bytes → Block 64

/-! ## Bytes in place -/

def zeros (count : Nat) : Bytes := List.replicate count 0

/-- `bytes[start..stop]`. -/
def slice (bytes : Bytes) (start stop : Nat) : Bytes := (bytes.drop start).take (stop - start)

/-- `bytes[start..][..part.len()].copy_from_slice(part)`. -/
def copyFrom (bytes : Bytes) (start : Nat) (part : Bytes) : Bytes :=
  bytes.take start ++ part ++ bytes.drop (start + part.length)

@[simp] theorem length_zeros (count : Nat) : (zeros count).length = count :=
  List.length_replicate

theorem length_copyFrom {bytes part : Bytes} {start : Nat}
    (h : start + part.length ≤ bytes.length) : (copyFrom bytes start part).length = bytes.length := by
  simp only [copyFrom, List.length_append, List.length_take, List.length_drop]
  omega

/-! ## The descriptor -/

structure Descriptor where
  bytes : Bytes
  length_bytes : bytes.length = 256

structure Layout where
  /-- The lowest level first, relative to the start of the tree. -/
  starts : List Nat
  size : Nat

/-- What the descriptor says about the tree: `hash` is the salted hash of a block. -/
structure Shape where
  blockSize : Nat
  digestSize : Nat
  arity : Nat
  hash : Bytes → Bytes

/-- The bytes that `new` fills in. -/
def newBytes (algorithm blockSize : Nat) (salt : Bytes) (dataSize : Nat) : Bytes :=
  let bytes := zeros 256
  let bytes := bytes.set 0 1
  let bytes := bytes.set 1 (.ofNat 8 algorithm)
  let bytes := bytes.set 2 (.ofNat 8 (BitVec.ofNat 32 blockSize).ctz.toNat)
  let bytes := bytes.set 3 (.ofNat 8 salt.length)
  let bytes := copyFrom bytes 8 (leBytes 8 dataSize)
  copyFrom bytes 80 salt

theorem length_newBytes {algorithm blockSize dataSize : Nat} {salt : Bytes}
    (h : salt.length ≤ 32) : (newBytes algorithm blockSize salt dataSize).length = 256 := by
  unfold newBytes
  rw [length_copyFrom, length_copyFrom] <;> simp [length_copyFrom]
  omega

/-- What `new` refuses. -/
def Refused (algorithm blockSize : Nat) (salt : Bytes) (dataSize : Nat) : Prop :=
  ¬ (algorithm = 1 ∨ algorithm = 2) ∨ ¬ (blockSize = 1024 ∨ blockSize = 2048 ∨ blockSize = 4096) ∨
    32 < salt.length ∨ 2 ^ 63 - 1 < dataSize

instance {algorithm blockSize : Nat} {salt : Bytes} {dataSize : Nat} :
    Decidable (Refused algorithm blockSize salt dataSize) :=
  inferInstanceAs (Decidable (_ ∨ _))

namespace Descriptor

def new (algorithm blockSize : Nat) (salt : Bytes) (dataSize : Nat) : Except Int Descriptor :=
  if h : Refused algorithm blockSize salt dataSize then .error EINVAL
  else .ok ⟨newBytes algorithm blockSize salt dataSize, length_newBytes (by
    unfold Refused at h
    omega)⟩

def byteAt (d : Descriptor) (i : Nat) : BitVec 8 := d.bytes.getD i 0

def dataSize (d : Descriptor) : Nat := ofLe (slice d.bytes 8 16)

def blockSize (d : Descriptor) : Nat := 1 <<< (d.byteAt 2).toNat

def algorithm (d : Descriptor) : Nat := (d.byteAt 1).toNat

def digestSize (d : Descriptor) : Nat := if d.algorithm = 1 then 32 else 64

def arity (d : Descriptor) : Nat := d.blockSize / d.digestSize

def hash (sha : Sha) (d : Descriptor) (block : Bytes) : Bytes :=
  let salt := slice d.bytes 80 (80 + (d.byteAt 3).toNat)
  -- The salt is padded to what the hash works on at a time, not to a block of the tree.
  let padded := copyFrom (zeros 128) 0 salt
  if d.algorithm = 1 then
    (sha.sha256 ((if salt.isEmpty then [] else padded.take 64) ++ block)).1
  else
    (sha.sha512 ((if salt.isEmpty then [] else padded) ++ block)).1

def shape (sha : Sha) (d : Descriptor) : Shape where
  blockSize := d.blockSize
  digestSize := d.digestSize
  arity := d.arity
  hash := d.hash sha

/-- The first loop of `layout`: how many blocks each level has. Every round leaves fewer blocks,
so that as many rounds as there are blocks are enough. -/
def counts (arity : Nat) : Nat → Nat → List Nat
  | 0, _ => []
  | rounds + 1, blocks =>
    if 1 < blocks then (blocks ⌈/⌉ arity) :: counts arity rounds (blocks ⌈/⌉ arity) else []

def checked (n : Nat) : Except Int Nat := if n < 2 ^ 64 then .ok n else .error EOVERFLOW

/-- The second loop of `layout`, which places the top level first. -/
def place (blockSize : Nat) : List Nat → Except Int Layout
  | [] => .ok ⟨[], 0⟩
  | count :: rest => do
    let ⟨starts, size⟩ ← place blockSize rest
    let bytes ← checked (count * blockSize)
    let total ← checked (size + bytes)
    .ok ⟨size :: starts, total⟩

def dataBlocks (d : Descriptor) : Nat := d.dataSize ⌈/⌉ d.blockSize

def layout (d : Descriptor) : Except Int Layout :=
  place d.blockSize (counts d.arity d.dataBlocks d.dataBlocks)

/-- Some byte is not zero. -/
def dirty (bytes : Bytes) : Bool := bytes.any (· != 0)

def decode (bytes : Bytes) : Except Int Descriptor :=
  if h : bytes.length = 256 then
    let value : Descriptor := ⟨bytes, h⟩
    if value.byteAt 0 ≠ 1 ∨ ¬ (value.byteAt 1 = 1 ∨ value.byteAt 1 = 2) ∨
        ¬ (10 ≤ (value.byteAt 2).toNat ∧ (value.byteAt 2).toNat ≤ 12) ∨
        32 < (value.byteAt 3).toNat ∨ slice bytes 4 8 ≠ zeros 4 ∨
        dirty (bytes.drop 112) ∨ dirty (slice bytes (80 + (value.byteAt 3).toNat) 112) ∨
        (value.byteAt 1 = 1 ∧ dirty (slice bytes 48 80)) then .error EIO
    else if 2 ^ 63 - 1 < value.dataSize ∨ (value.dataSize = 0 ∧ dirty (slice bytes 16 80)) then
      .error EIO
    else do
      let _ ← value.layout
      .ok value
  else .error EIO

def treeSize (d : Descriptor) : Except Int Nat := do
  let layout ← d.layout
  .ok layout.size

/-! ## The check of a block -/

/-- A reader fills a buffer from an offset; what it keeps between two calls is `σ`. -/
abbrev Reader (σ : Type) := σ → Nat → (size : Nat) → Except Int (Block size × σ)

variable {σ : Type}

/-- The loop of `verify_block`, up to the hash of the top block. -/
def path (shape : Shape) (readTree : Reader σ) : List Nat → Nat → Bytes → σ → Except Int (Bytes × σ)
  | [], _, hash, s => .ok (hash, s)
  | start :: starts, index, hash, s => do
    let offset := start + index / shape.arity * shape.blockSize
    let (treeBlock, s) ← readTree s offset shape.blockSize
    let slot := index % shape.arity * shape.digestSize
    if slice treeBlock.1 slot (slot + shape.digestSize) ≠ hash then .error EIO
    else path shape readTree starts (index / shape.arity) (shape.hash treeBlock.1) s

def verifyBlock (sha : Sha) (d : Descriptor) (index : Nat) (block : Bytes)
    (readTree : Reader σ) (s : σ) : Except Int σ :=
  if block.length ≠ d.blockSize ∨ d.dataBlocks ≤ index then .error EINVAL
  else do
    let layout ← d.layout
    let (hash, s) ← path (d.shape sha) readTree layout.starts index (d.hash sha block) s
    if slice d.bytes 16 (16 + d.digestSize) ≠ hash then .error EIO else .ok s

end Descriptor

end Kinakaze.Verity
