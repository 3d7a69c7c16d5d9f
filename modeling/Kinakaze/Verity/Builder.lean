import Kinakaze.Verity.Descriptor

/-!
# Building the tree

`fs/verity/merkle.rs`, `build`: the data is read once, a block at a time, and every level of the
tree keeps one block that is being filled.
-/

namespace Kinakaze.Verity

open Library

/-- Why `build` stops: an error of the reader or of the writer, or an index outside a buffer. -/
inductive Stop where
  | error (code : Int)
  | overflow

/-- A writer is given an offset and the bytes that go there. -/
abbrev Writer (σ : Type) := σ → Nat → Bytes → Except Int σ

/-- One level: `layout.starts`, `buffers`, `filled` and `written` at its place. -/
structure Level where
  start : Nat
  buffer : Bytes
  filled : Nat
  written : Nat

variable {ρ σ : Type}

def writeBlock (writeTree : Writer σ) (s : σ) (level : Level) : Except Stop σ :=
  (writeTree s (level.start + level.written) level.buffer).mapError .error

def feed (shape : Shape) (writeTree : Writer σ) :
    List Level → Bytes → σ → Bytes → Except Stop (List Level × Bytes × σ)
  | [], _, s, hash => .ok ([], hash, s)
  | level :: rest, root, s, hash =>
    let next := level.filled + shape.digestSize
    if shape.blockSize < next then .error .overflow
    else
      let level := { level with buffer := copyFrom level.buffer level.filled hash, filled := next }
      if next ≠ shape.blockSize then .ok (level :: rest, root, s)
      else do
        let s ← writeBlock writeTree s level
        let (rest, root, s) ← feed shape writeTree rest root s (shape.hash level.buffer)
        .ok ({ level with
          written := level.written + shape.blockSize
          buffer := zeros shape.blockSize
          filled := 0 } :: rest, root, s)

/-- The loop over the levels after the data. -/
def flush (shape : Shape) (writeTree : Writer σ) : List Level → Bytes → σ → Except Stop (Bytes × σ)
  | [], root, s => .ok (root, s)
  | level :: rest, root, s =>
    if level.filled = 0 then flush shape writeTree rest root s
    else do
      let s ← writeBlock writeTree s level
      let hash := shape.hash level.buffer
      match rest with
      | [] => .ok (hash, s)
      | upper :: rest =>
        if shape.blockSize < upper.filled + shape.digestSize then .error .overflow
        else
          flush shape writeTree ({ upper with
            buffer := copyFrom upper.buffer upper.filled hash
            filled := upper.filled + shape.digestSize } :: rest) root s
  termination_by levels => levels.length

/-- The loop over the data. It reads at least one byte a round. -/
def readAll (shape : Shape) (dataSize : Nat) (readData : Descriptor.Reader ρ)
    (writeTree : Writer σ) :
    Nat → Nat → List Level × Bytes × ρ × σ → Except Stop (List Level × Bytes × ρ × σ)
  | 0, _, state => .ok state
  | rounds + 1, offset, (levels, root, r, s) =>
    if offset < dataSize then do
      let amount := min (dataSize - offset) shape.blockSize
      let (part, r) ← (readData r offset amount).mapError .error
      let block := copyFrom (zeros shape.blockSize) 0 part.1
      let (levels, root, s) ← feed shape writeTree levels root s (shape.hash block)
      readAll shape dataSize readData writeTree rounds (offset + amount) (levels, root, r, s)
    else .ok (levels, root, r, s)

/-- `descriptor.0[16..16 + digest_size].copy_from_slice(&root)`. -/
def Descriptor.withRoot (d : Descriptor) (root : Bytes) : Except Stop Descriptor :=
  if h : root.length = d.digestSize then
    .ok ⟨copyFrom d.bytes 16 root, by
      rw [length_copyFrom] <;> rw [d.length_bytes]
      have hsize : d.digestSize ≤ 64 := by
        unfold Descriptor.digestSize
        split <;> decide
      omega⟩
  else .error .overflow

def build (sha : Sha) (d : Descriptor) (readData : Descriptor.Reader ρ) (writeTree : Writer σ)
    (r : ρ) (s : σ) : Except Stop (Descriptor × ρ × σ) := do
  let layout ← d.layout.mapError .error
  let shape := d.shape sha
  let levels := layout.starts.map fun start => ⟨start, zeros shape.blockSize, 0, 0⟩
  let root := zeros shape.digestSize
  let (levels, root, r, s) ←
    readAll shape d.dataSize readData writeTree d.dataSize 0 (levels, root, r, s)
  let (root, s) ← flush shape writeTree levels root s
  let built ← d.withRoot root
  .ok (built, r, s)

/-! ## What a level holds -/

/-- The sizes fit together: a block has room for exactly `arity` hashes. -/
structure Shape.Exact (p : Shape) : Prop where
  blockSize_eq : p.blockSize = p.arity * p.digestSize
  arity_pos : 0 < p.arity
  digestSize_pos : 0 < p.digestSize
  length_hash : ∀ block, (p.hash block).length = p.digestSize

namespace Shape

/-- A block of the tree: hashes and zeros after them. -/
def pack (p : Shape) (hashes : List Bytes) : Bytes :=
  hashes.flatten ++ zeros (p.blockSize - p.digestSize * hashes.length)

def node (p : Shape) (hashes : List Bytes) : Bytes := p.hash (p.pack hashes)

/-- Every one of the hashes is as long as a hash is. -/
def Sized (p : Shape) (hashes : List Bytes) : Prop := ∀ hash ∈ hashes, hash.length = p.digestSize

variable {p : Shape} {hashes : List Bytes}

theorem Sized.length_flatten (h : p.Sized hashes) :
    hashes.flatten.length = p.digestSize * hashes.length := by
  induction hashes with
  | nil => rfl
  | cons hash rest ih =>
    have hhash := h hash List.mem_cons_self
    have hrest := ih fun x hx => h x (List.mem_cons_of_mem _ hx)
    rw [List.flatten_cons, List.length_append, hhash, hrest, List.length_cons, Nat.mul_succ]
    omega

theorem Sized.drop (h : p.Sized hashes) (n : Nat) : p.Sized (hashes.drop n) :=
  fun hash hhash => h hash (List.mem_of_mem_drop hhash)

theorem Sized.row (h : p.Sized hashes) (arity i : Nat) : p.Sized (row arity hashes i) :=
  fun hash hhash => h hash (List.mem_of_mem_drop (List.mem_of_mem_take hhash))

theorem Exact.sized_nodes (hp : p.Exact) (hashes : List Bytes) (count : Nat) :
    p.Sized (nodes p.arity p.node hashes count) := by
  intro hash hhash
  obtain ⟨i, _, rfl⟩ := List.mem_map.mp hhash
  exact hp.length_hash _

theorem Exact.sized_above (hp : p.Exact) (hashes : List Bytes) :
    p.Sized (above p.arity p.node hashes) := hp.sized_nodes hashes _

theorem Exact.room (hp : p.Exact) {count : Nat} (h : count ≤ p.arity) :
    p.digestSize * count ≤ p.blockSize := by
  rw [hp.blockSize_eq, Nat.mul_comm p.arity]
  exact Nat.mul_le_mul_left _ h

theorem Exact.length_pack (hp : p.Exact) (hsized : p.Sized hashes) (h : hashes.length ≤ p.arity) :
    (p.pack hashes).length = p.blockSize := by
  have hroom := hp.room h
  rw [pack, List.length_append, hsized.length_flatten, length_zeros]
  omega

theorem Exact.copyFrom_pack (hp : p.Exact) {hash : Bytes} (hsized : p.Sized hashes)
    (hhash : hash.length = p.digestSize) (h : hashes.length < p.arity) :
    copyFrom (p.pack hashes) (p.digestSize * hashes.length) hash = p.pack (hashes ++ [hash]) := by
  have hroom := hp.room (Nat.succ_le_of_lt h)
  rw [Nat.mul_succ] at hroom
  have htake : (p.pack hashes).take (p.digestSize * hashes.length) = hashes.flatten := by
    rw [pack, ← hsized.length_flatten, List.take_left']
    rfl
  have hdrop : (p.pack hashes).drop (p.digestSize * hashes.length + p.digestSize) =
      zeros (p.blockSize - p.digestSize * (hashes.length + 1)) := by
    rw [pack, ← hsized.length_flatten, ← List.drop_drop, List.drop_left', zeros, zeros,
      List.drop_replicate, hsized.length_flatten, Nat.mul_succ, Nat.sub_sub]
    rfl
  rw [copyFrom, hhash, htake, hdrop, pack, List.flatten_append, List.flatten_singleton,
    List.length_append, List.length_singleton]

end Shape

end Kinakaze.Verity
