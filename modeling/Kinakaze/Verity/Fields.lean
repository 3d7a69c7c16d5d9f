import Kinakaze.Verity.Builder

/-!
# The bytes of a descriptor

* `fields`: where everything is in the 256 bytes.
* `decode_made`: `decode` takes the bytes of such a descriptor back.
-/

namespace Kinakaze.Verity

open Library Descriptor

/-! ## Reading and writing in the middle -/

theorem slice_middle (before part after : Bytes) {start stop : Nat} (hstart : before.length = start)
    (hstop : start + part.length = stop) : slice (before ++ part ++ after) start stop = part := by
  subst hstart
  subst hstop
  rw [slice, List.append_assoc, List.drop_left, Nat.add_sub_cancel_left, List.take_left]

theorem copyFrom_middle (before old after : Bytes) {part : Bytes}
    (hpart : part.length = old.length) :
    copyFrom (before ++ old ++ after) before.length part = before ++ part ++ after := by
  rw [copyFrom, hpart, ← List.length_append, List.drop_left, List.append_assoc before old,
    List.take_left]

theorem dirty_zeros (count : Nat) : dirty (zeros count) = false := by
  simp [dirty, zeros]

theorem zeros_add (m n : Nat) : zeros (m + n) = zeros m ++ zeros n :=
  List.replicate_add m n 0

/-! ## Where everything is -/

/-- The first 16 bytes. -/
def header (algorithm logSize saltSize : BitVec 8) (dataSize : Nat) : Bytes :=
  [1, algorithm, logSize, saltSize, 0, 0, 0, 0] ++ leBytes 8 dataSize

def fields (algorithm logSize : BitVec 8) (salt : Bytes) (dataSize : Nat) (root : Bytes) : Bytes :=
  header algorithm logSize (.ofNat 8 salt.length) dataSize ++ root ++
    (zeros (64 - root.length) ++ salt ++ (zeros (32 - salt.length) ++ zeros 144))

def logSize (blockSize : Nat) : BitVec 8 := .ofNat 8 (BitVec.ofNat 32 blockSize).ctz.toNat

theorem logSize_toNat {blockSize : Nat}
    (h : blockSize = 1024 ∨ blockSize = 2048 ∨ blockSize = 4096) :
    10 ≤ (logSize blockSize).toNat ∧ (logSize blockSize).toNat ≤ 12 ∧
      1 <<< (logSize blockSize).toNat = blockSize := by
  rcases h with rfl | rfl | rfl <;> decide +kernel

theorem length_header (algorithm logSize saltSize : BitVec 8) (dataSize : Nat) :
    (header algorithm logSize saltSize dataSize).length = 16 := by
  rw [header, List.length_append, length_leBytes]
  rfl

theorem newBytes_eq {algorithm blockSize dataSize : Nat} {salt : Bytes} (h : salt.length ≤ 32) :
    newBytes algorithm blockSize salt dataSize =
      fields (.ofNat 8 algorithm) (logSize blockSize) salt dataSize [] := by
  have hset : ((((zeros 256).set 0 1).set 1 (.ofNat 8 algorithm)).set 2 (logSize blockSize)).set 3
      (.ofNat 8 salt.length) = [1, .ofNat 8 algorithm, logSize blockSize, .ofNat 8 salt.length,
        0, 0, 0, 0] ++ zeros 8 ++ zeros 240 := rfl
  have hrest : zeros 240 =
      zeros 64 ++ zeros salt.length ++ (zeros (32 - salt.length) ++ zeros 144) := by
    rw [← zeros_add, ← zeros_add, ← zeros_add]
    congr 1
    omega
  have hsize := copyFrom_middle [1, .ofNat 8 algorithm, logSize blockSize,
    .ofNat 8 salt.length, 0, 0, 0, 0] (zeros 8) (zeros 240)
    (show (leBytes 8 dataSize).length = (zeros 8).length by rw [length_leBytes, length_zeros])
  have hsalt := copyFrom_middle (header (.ofNat 8 algorithm) (logSize blockSize)
    (.ofNat 8 salt.length) dataSize ++ zeros 64) (zeros salt.length)
    (zeros (32 - salt.length) ++ zeros 144) (length_zeros salt.length).symm
  have hbefore : (header (.ofNat 8 algorithm) (logSize blockSize) (.ofNat 8 salt.length) dataSize ++
      zeros 64).length = 80 := by
    rw [List.length_append, length_header, length_zeros]
  rw [hbefore] at hsalt
  show copyFrom (copyFrom (((((zeros 256).set 0 1).set 1 (.ofNat 8 algorithm)).set 2
    (logSize blockSize)).set 3 (.ofNat 8 salt.length)) 8 (leBytes 8 dataSize)) 80 salt = _
  have height : [1, .ofNat 8 algorithm, logSize blockSize, .ofNat 8 salt.length,
      (0 : BitVec 8), 0, 0, 0].length = 8 := rfl
  rw [height] at hsize
  rw [hset, hsize, hrest, fields]
  simp only [List.append_assoc, List.append_nil, List.length_nil, Nat.sub_zero] at hsalt ⊢
  exact hsalt

example : (newBytes 1 4096 [7] 0).take 5 = [1, 1, 12, 1, 0] := by decide +kernel

/-! ## Descriptors that were made -/

/-- The values that `new` was given, and the root that was put in. -/
structure Made (algorithm blockSize : Nat) (salt : Bytes) (dataSize : Nat) (root : Bytes)
    (d : Descriptor) : Prop where
  accepted : ¬ Refused algorithm blockSize salt dataSize
  root_le : root.length ≤ 64
  bytes_eq : d.bytes = fields (.ofNat 8 algorithm) (logSize blockSize) salt dataSize root

section Made

variable {algorithm blockSize dataSize : Nat} {salt root : Bytes} {d : Descriptor}

theorem not_refused : ¬ Refused algorithm blockSize salt dataSize ↔
    (algorithm = 1 ∨ algorithm = 2) ∧ (blockSize = 1024 ∨ blockSize = 2048 ∨ blockSize = 4096) ∧
      salt.length ≤ 32 ∧ dataSize ≤ 2 ^ 63 - 1 := by
  unfold Refused
  omega

theorem new_made (h : ¬ Refused algorithm blockSize salt dataSize) :
    ∃ d, new algorithm blockSize salt dataSize = .ok d ∧
      Made algorithm blockSize salt dataSize [] d := by
  refine ⟨_, dif_neg h, h, by decide, ?_⟩
  exact newBytes_eq (not_refused.mp h).2.2.1

namespace Made

section

variable (made : Made algorithm blockSize salt dataSize root d)
include made

theorem byteAt_eq {i : Nat} (h : i < 8) :
    d.byteAt i = [1, .ofNat 8 algorithm, logSize blockSize, .ofNat 8 salt.length,
      0, 0, 0, 0].getD i 0 := by
  rw [byteAt, made.bytes_eq, fields, header, List.append_assoc, List.append_assoc,
    List.getD_eq_getElem?_getD, List.getElem?_append_left h, ← List.getD_eq_getElem?_getD]

theorem byteAt_algorithm : d.byteAt 1 = .ofNat 8 algorithm := made.byteAt_eq (by decide)

theorem byteAt_logSize : d.byteAt 2 = logSize blockSize := made.byteAt_eq (by decide)

theorem saltSize_eq : (d.byteAt 3).toNat = salt.length := by
  have hsalt := (not_refused.mp made.accepted).2.2.1
  have hbyte : d.byteAt 3 = .ofNat 8 salt.length := made.byteAt_eq (by decide)
  rw [hbyte, BitVec.toNat_ofNat]
  exact Nat.mod_eq_of_lt (by omega)

theorem algorithm_eq : d.algorithm = algorithm := by
  rw [Descriptor.algorithm, made.byteAt_algorithm]
  rcases (not_refused.mp made.accepted).1 with rfl | rfl <;> rfl

theorem blockSize_eq : d.blockSize = blockSize := by
  rw [Descriptor.blockSize, made.byteAt_logSize]
  exact (logSize_toNat (not_refused.mp made.accepted).2.1).2.2

theorem dataSize_eq : d.dataSize = dataSize := by
  have hsize := (not_refused.mp made.accepted).2.2.2
  have hslice : slice d.bytes 8 16 = leBytes 8 dataSize := by
    rw [made.bytes_eq, fields, header, List.append_assoc]
    exact slice_middle _ _ _ rfl (by rw [length_leBytes])
  rw [Descriptor.dataSize, hslice]
  exact ofLe_leBytes_of_lt (by omega)

theorem salt_eq : slice d.bytes 80 (80 + salt.length) = salt := by
  have hroot := made.root_le
  rw [made.bytes_eq, fields, ← List.append_assoc _ _ (zeros (32 - salt.length) ++ zeros 144),
    ← List.append_assoc _ _ salt]
  refine slice_middle _ _ _ ?_ rfl
  rw [List.length_append, List.length_append, length_header, length_zeros]
  omega

theorem root_eq : slice d.bytes 16 (16 + root.length) = root := by
  rw [made.bytes_eq, fields]
  exact slice_middle _ _ _ (length_header _ _ _ _) rfl

theorem digestSize_eq : d.digestSize = if algorithm = 1 then 32 else 64 := by
  rw [Descriptor.digestSize, made.algorithm_eq]

end

theorem shape_eq (sha : Sha) {root' : Bytes} {d' : Descriptor}
    (made : Made algorithm blockSize salt dataSize root d)
    (made' : Made algorithm blockSize salt dataSize root' d') : d'.shape sha = d.shape sha := by
  have hhash : d'.hash sha = d.hash sha := by
    funext block
    rw [Descriptor.hash, Descriptor.hash, made.saltSize_eq, made'.saltSize_eq, made.salt_eq,
      made'.salt_eq, made.algorithm_eq, made'.algorithm_eq]
  rw [shape, shape, hhash, arity, arity, made.blockSize_eq, made'.blockSize_eq,
    made.digestSize_eq, made'.digestSize_eq]

theorem exact (sha : Sha) (made : Made algorithm blockSize salt dataSize root d) :
    (d.shape sha).Exact := by
  have hblock : d.blockSize = d.arity * d.digestSize ∧ 0 < d.arity := by
    rw [arity, made.blockSize_eq, made.digestSize_eq]
    obtain ⟨halgorithm, hblock, _⟩ := not_refused.mp made.accepted
    rcases halgorithm with rfl | rfl <;> rcases hblock with rfl | rfl | rfl <;> decide
  exact {
    blockSize_eq := hblock.1
    arity_pos := hblock.2
    digestSize_pos := by
      show 0 < d.digestSize
      unfold Descriptor.digestSize
      split <;> decide
    length_hash := fun block => by
      show (d.hash sha block).length = d.digestSize
      unfold Descriptor.hash Descriptor.digestSize
      by_cases halgorithm : d.algorithm = 1
      · simp only [if_pos halgorithm]
        exact (sha.sha256 _).2
      · simp only [if_neg halgorithm]
        exact (sha.sha512 _).2 }

theorem arity_ge (made : Made algorithm blockSize salt dataSize root d) : 16 ≤ d.arity := by
  rw [arity, made.blockSize_eq, made.digestSize_eq]
  obtain ⟨halgorithm, hblock, _⟩ := not_refused.mp made.accepted
  rcases halgorithm with rfl | rfl <;> rcases hblock with rfl | rfl | rfl <;> decide

theorem withRoot (made : Made algorithm blockSize salt dataSize [] d) {root : Bytes}
    (hroot : root.length = d.digestSize) :
    ∃ built, d.withRoot root = .ok built ∧ Made algorithm blockSize salt dataSize root built := by
  have hsize : root.length ≤ 64 := by
    rw [hroot, Descriptor.digestSize]
    split <;> decide
  refine ⟨_, dif_pos hroot, made.accepted, hsize, ?_⟩
  have hzeros : zeros (64 - ([] : Bytes).length) = zeros root.length ++ zeros (64 - root.length) := by
    rw [← zeros_add]
    congr 1
    simp only [List.length_nil]
    omega
  have hcopy := copyFrom_middle (header (.ofNat 8 algorithm) (logSize blockSize)
    (.ofNat 8 salt.length) dataSize) (zeros root.length)
    (zeros (64 - root.length) ++ salt ++ (zeros (32 - salt.length) ++ zeros 144))
    (length_zeros root.length).symm
  rw [length_header] at hcopy
  show copyFrom d.bytes 16 root = _
  rw [made.bytes_eq, fields, fields, hzeros]
  simp only [List.append_assoc, List.append_nil] at hcopy ⊢
  exact hcopy

/-- `decode` takes the bytes of a descriptor whose layout is in range. -/
theorem decode_eq (made : Made algorithm blockSize salt dataSize root d)
    (hroot : root.length = d.digestSize)
    (hempty : dataSize = 0 → root = zeros root.length) {layout : Layout}
    (hlayout : d.layout = .ok layout) : decode d.bytes = .ok d := by
  obtain ⟨halgorithm, hblock, hsalt, hsize⟩ := not_refused.mp made.accepted
  have hle := made.root_le
  have hfirst : d.byteAt 0 = 1 := made.byteAt_eq (by decide)
  have hsecond : d.byteAt 1 = 1 ∨ d.byteAt 1 = 2 := by
    rw [made.byteAt_algorithm]
    rcases halgorithm with rfl | rfl
    · exact .inl rfl
    · exact .inr rfl
  have hthird : 10 ≤ (d.byteAt 2).toNat ∧ (d.byteAt 2).toNat ≤ 12 := by
    have hlog := logSize_toNat hblock
    rw [made.byteAt_logSize]
    exact ⟨hlog.1, hlog.2.1⟩
  have hreserved : slice d.bytes 4 8 = zeros 4 := by
    rw [made.bytes_eq, fields, header]
    rfl
  have htail : d.bytes.drop 112 = zeros 144 := by
    rw [made.bytes_eq, fields, ← List.append_assoc _ _ (zeros (32 - salt.length) ++ zeros 144),
      ← List.append_assoc _ _ (zeros 144)]
    apply List.drop_left'
    simp only [List.length_append, length_header, length_zeros]
    omega
  have hsaltTail : slice d.bytes (80 + (d.byteAt 3).toNat) 112 = zeros (32 - salt.length) := by
    rw [made.saltSize_eq, made.bytes_eq, fields,
      ← List.append_assoc _ _ (zeros (32 - salt.length) ++ zeros 144),
      ← List.append_assoc _ _ (zeros 144)]
    apply slice_middle
    · simp only [List.length_append, length_header, length_zeros]
      omega
    · rw [length_zeros]
      omega
  have hrootTail : d.byteAt 1 = 1 → slice d.bytes 48 80 = zeros 32 := by
    intro hone
    have hdigest : root.length = 32 := by
      rw [hroot, Descriptor.digestSize, Descriptor.algorithm, hone]
      rfl
    rw [made.bytes_eq, fields, hdigest, List.append_assoc (zeros (64 - 32)),
      ← List.append_assoc _ (zeros (64 - 32))]
    apply slice_middle
    · rw [List.length_append, length_header, hdigest]
    · rfl
  have hnoRoot : d.dataSize = 0 → slice d.bytes 16 80 = zeros 64 := by
    intro hzero
    rw [made.dataSize_eq] at hzero
    have hall : root ++ zeros (64 - root.length) = zeros 64 := by
      rw [hempty hzero, length_zeros, ← zeros_add]
      congr 1
      omega
    have hbytes : d.bytes = header (.ofNat 8 algorithm) (logSize blockSize)
        (.ofNat 8 salt.length) dataSize ++ zeros 64 ++
          (salt ++ (zeros (32 - salt.length) ++ zeros 144)) := by
      rw [made.bytes_eq, fields, ← hall]
      simp only [List.append_assoc]
    rw [hbytes]
    exact slice_middle _ _ _ (length_header _ _ _ _) rfl
  rw [decode, dif_pos d.length_bytes, if_neg, if_neg]
  · show (d.layout >>= fun _ => Except.ok d) = _
    rw [hlayout]
    rfl
  · show ¬ (2 ^ 63 - 1 < d.dataSize ∨ (d.dataSize = 0 ∧ dirty (slice d.bytes 16 80)))
    rintro (hlarge | ⟨hzero, hdirty⟩)
    · rw [made.dataSize_eq] at hlarge
      omega
    · rw [hnoRoot hzero, dirty_zeros] at hdirty
      cases hdirty
  show ¬ (d.byteAt 0 ≠ 1 ∨ ¬ (d.byteAt 1 = 1 ∨ d.byteAt 1 = 2) ∨
    ¬ (10 ≤ (d.byteAt 2).toNat ∧ (d.byteAt 2).toNat ≤ 12) ∨
    32 < (d.byteAt 3).toNat ∨ slice d.bytes 4 8 ≠ zeros 4 ∨
    dirty (d.bytes.drop 112) ∨ dirty (slice d.bytes (80 + (d.byteAt 3).toNat) 112) ∨
    (d.byteAt 1 = 1 ∧ dirty (slice d.bytes 48 80)))
  rw [htail, hsaltTail, dirty_zeros, dirty_zeros, made.saltSize_eq]
  rintro (h | h | h | h | h | h | h | ⟨hone, h⟩)
  · exact h hfirst
  · exact h hsecond
  · exact h hthird
  · omega
  · exact h hreserved
  · cases h
  · cases h
  · rw [hrootTail hone, dirty_zeros] at h
    cases h

end Made

end Made

end Kinakaze.Verity
