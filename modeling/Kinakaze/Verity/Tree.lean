import Kinakaze.Verity.Fields
import Kinakaze.Verity.Levels

/-!
# The tree that is built

* `readAll_holds`: the data is read once, block by block.
* `place_ok` and `tiled`: the levels lie one after the other and their blocks fill the tree.
-/

namespace Kinakaze.Verity

open Library Shape Descriptor

/-! ## Reading the data -/

/-- A reader of a file that remembers what it was asked for. -/
def fileReader (data : Bytes) : Reader (List (Nat × Nat)) := fun log offset size =>
  if h : (slice data offset (offset + size)).length = size then
    .ok (⟨slice data offset (offset + size), h⟩, log ++ [(offset, size)])
  else .error EIO

/-- Where the block `i` of the data is, and how much of it there is. -/
def span (blockSize dataSize i : Nat) : Nat × Nat :=
  (i * blockSize, min (dataSize - i * blockSize) blockSize)

/-- The block `i` of the data with zeros after its end. -/
def dataBlock (blockSize : Nat) (data : Bytes) (i : Nat) : Bytes :=
  let part := slice data (i * blockSize) (i * blockSize + blockSize)
  part ++ zeros (blockSize - part.length)

def leaves (p : Shape) (data : Bytes) (count : Nat) : List Bytes :=
  (List.range count).map fun i => p.hash (dataBlock p.blockSize data i)

theorem length_slice (bytes : Bytes) (start stop : Nat) :
    (slice bytes start stop).length = min (stop - start) (bytes.length - start) := by
  rw [slice, List.length_take, List.length_drop]

theorem length_dataBlock (blockSize : Nat) (data : Bytes) (i : Nat) :
    (dataBlock blockSize data i).length = blockSize := by
  simp only [dataBlock, List.length_append, length_slice, length_zeros]
  omega

theorem leaves_succ (p : Shape) (data : Bytes) (count : Nat) :
    leaves p data (count + 1) = leaves p data count ++ [p.hash (dataBlock p.blockSize data count)] := by
  rw [leaves, List.range_succ, List.map_append, List.map_singleton, leaves]

variable {p : Shape}

theorem sized_leaves (hp : p.Exact) (data : Bytes) (count : Nat) : p.Sized (leaves p data count)
    := by
  intro hash hhash
  obtain ⟨i, _, rfl⟩ := List.mem_map.mp hhash
  exact hp.length_hash _

variable {i rounds arity n : Nat}

theorem fileReader_block {data : Bytes} (h : i * p.blockSize < data.length) (log : List (Nat × Nat))
    :
    ∃ part, fileReader data log (i * p.blockSize)
        (min (data.length - i * p.blockSize) p.blockSize) =
        .ok (part, log ++ [span p.blockSize data.length i]) ∧
      copyFrom (zeros p.blockSize) 0 part.1 = dataBlock p.blockSize data i := by
  have hpart : slice data (i * p.blockSize)
      (i * p.blockSize + min (data.length - i * p.blockSize) p.blockSize) =
      slice data (i * p.blockSize) (i * p.blockSize + p.blockSize) := by
    rw [slice, slice, Nat.add_sub_cancel_left, Nat.add_sub_cancel_left]
    rcases Nat.le_total (data.length - i * p.blockSize) p.blockSize with hle | hle
    · rw [Nat.min_eq_left hle, List.take_of_length_le (by rw [List.length_drop]),
        List.take_of_length_le (by rw [List.length_drop]; exact hle)]
    · rw [Nat.min_eq_right hle]
  have hlength : (slice data (i * p.blockSize)
      (i * p.blockSize + min (data.length - i * p.blockSize) p.blockSize)).length =
      min (data.length - i * p.blockSize) p.blockSize := by
    rw [length_slice]
    omega
  refine ⟨⟨_, hlength⟩, ?_, ?_⟩
  · rw [fileReader, dif_pos hlength, span]
  · simp only [hpart, dataBlock, copyFrom, List.take_zero, List.nil_append, Nat.zero_add]
    rw [zeros, zeros, List.drop_replicate]

variable {levels : List Level} {log : List (Nat × Bytes)}

theorem readAll_holds (hp : p.Exact) {data : Bytes} {root : Bytes}
    (hi : i ≤ data.length ⌈/⌉ p.blockSize) (hrounds : data.length ⌈/⌉ p.blockSize ≤ i + rounds)
    (holds : Holds p levels root (leaves p data i))
    (hlog : log.Perm (fullBlocks p (levels.map Level.start) (leaves p data i))) :
    ∃ levels' root' log', readAll p data.length (fileReader data) logWriter rounds
        (min (i * p.blockSize) data.length)
        (levels, root, (List.range i).map (span p.blockSize data.length), log) =
        .ok (levels', root', (List.range (data.length ⌈/⌉ p.blockSize)).map
          (span p.blockSize data.length), log') ∧
      levels'.map Level.start = levels.map Level.start ∧
      Holds p levels' root' (leaves p data (data.length ⌈/⌉ p.blockSize)) ∧
      log'.Perm (fullBlocks p (levels.map Level.start)
        (leaves p data (data.length ⌈/⌉ p.blockSize))) := by
  have hpos : 0 < p.blockSize := by
    rw [hp.blockSize_eq]
    exact Nat.mul_pos hp.arity_pos hp.digestSize_pos
  induction rounds generalizing i levels root log with
  | zero =>
    obtain rfl : i = data.length ⌈/⌉ p.blockSize := by omega
    exact ⟨levels, root, log, rfl, rfl, holds, hlog⟩
  | succ rounds ih =>
    rcases Nat.lt_or_ge i (data.length ⌈/⌉ p.blockSize) with hmore | hdone
    · have hlt : i * p.blockSize < data.length := (lt_ceilDiv_iff hpos).mp hmore
      obtain ⟨part, hread, hblock⟩ := fileReader_block hlt
        ((List.range i).map (span p.blockSize data.length))
      obtain ⟨levels₁, root₁, log₁, hfeed, hstarts, hholds, hperm⟩ :=
        feed_holds hp [] holds (sized_leaves hp data i)
          (hp.length_hash (dataBlock p.blockSize data i)) hlog
      rw [← leaves_succ] at hholds hperm
      rw [List.nil_append, ← hstarts] at hperm
      obtain ⟨levels', root', log', hrest, hstarts', hfinal⟩ :=
        ih hmore (by omega) hholds hperm
      refine ⟨levels', root', log', ?_, hstarts'.trans hstarts, ?_⟩
      · have hoffset : min (i * p.blockSize) data.length = i * p.blockSize :=
          Nat.min_eq_left hlt.le
        have hnext : i * p.blockSize + min (data.length - i * p.blockSize) p.blockSize =
            min ((i + 1) * p.blockSize) data.length := by
          rw [Nat.succ_mul]
          omega
        rw [readAll, hoffset, if_pos hlt, ← hrest, List.range_succ, List.map_append,
          List.map_singleton]
        simp only [hread, Except.mapError, ← hnext]
        show (feed p logWriter levels root log (p.hash (copyFrom _ 0 part.1)) >>= _) = _
        rw [hblock, hfeed]
        rfl
      · rw [hstarts] at hfinal
        exact hfinal
    · obtain rfl : i = data.length ⌈/⌉ p.blockSize := by omega
      have hend : ¬ min ((data.length ⌈/⌉ p.blockSize) * p.blockSize) data.length < data.length := by
        have hle : data.length ≤ p.blockSize • (data.length ⌈/⌉ p.blockSize) :=
          le_smul_ceilDiv hpos
        rw [smul_eq_mul, Nat.mul_comm] at hle
        omega
      rw [readAll, if_neg hend]
      exact ⟨levels, root, log, rfl, rfl, holds, hlog⟩

/-! ## Where the levels lie -/

/-- Every level comes after the levels above it. -/
def startsOf (blockSize : Nat) : List Nat → List Nat
  | [] => []
  | _ :: rest => rest.sum * blockSize :: startsOf blockSize rest

theorem length_startsOf (blockSize : Nat) (sizes : List Nat) :
    (startsOf blockSize sizes).length = sizes.length := by
  induction sizes with
  | nil => rfl
  | cons size rest ih => rw [startsOf, List.length_cons, List.length_cons, ih]

theorem place_ok {blockSize : Nat} {sizes : List Nat} (h : sizes.sum * blockSize < 2 ^ 64) :
    place blockSize sizes = .ok ⟨startsOf blockSize sizes, sizes.sum * blockSize⟩ := by
  induction sizes with
  | nil =>
    rw [place, startsOf, List.sum_nil, Nat.zero_mul]
  | cons size rest ih =>
    rw [List.sum_cons, Nat.add_mul] at h
    have hsize : size * blockSize < 2 ^ 64 := by omega
    have htotal : rest.sum * blockSize + size * blockSize < 2 ^ 64 := by omega
    rw [place, ih (by omega), startsOf, List.sum_cons, Nat.add_mul, Nat.add_comm (size * blockSize)]
    show (checked (size * blockSize) >>= _) = _
    rw [checked, if_pos hsize]
    show (checked (rest.sum * blockSize + size * blockSize) >>= _) = _
    rw [checked, if_pos htotal]
    rfl

theorem two_mul_ceilDiv_le (harity : 4 ≤ arity) (hn : 1 < n) : 2 * (n ⌈/⌉ arity) ≤ n := by
  have hhalf : n ⌈/⌉ arity ≤ n / 2 := by
    rw [ceilDiv_le_iff_le_mul (by omega)]
    calc n ≤ 4 * (n / 2) := by omega
      _ ≤ arity * (n / 2) := Nat.mul_le_mul_right _ harity
  omega

theorem ceilDiv_pos (harity : 0 < arity) (hn : 0 < n) : 0 < n ⌈/⌉ arity := by
  rw [lt_ceilDiv_iff harity, Nat.zero_mul]
  exact hn

theorem sum_counts_le (harity : 4 ≤ arity) (rounds n : Nat) :
    (counts arity rounds n).sum ≤ n - 1 := by
  induction rounds generalizing n with
  | zero => exact Nat.zero_le _
  | succ rounds ih =>
    rw [counts]
    by_cases hn : 1 < n
    · rw [if_pos hn, List.sum_cons]
      have hrest := ih (n ⌈/⌉ arity)
      have hhalf := two_mul_ceilDiv_le harity hn
      have hpos := ceilDiv_pos (show 0 < arity by omega) (show 0 < n by omega)
      omega
    · rw [if_neg hn]
      exact Nat.zero_le _

variable {hashes : List Bytes}

theorem length_climbed (harity : 4 ≤ p.arity) (hrounds : hashes.length ≤ rounds)
    (hsome : 0 < hashes.length) :
    (climbed p (counts p.arity rounds hashes.length).length hashes).length = 1 := by
  induction rounds generalizing hashes with
  | zero => omega
  | succ rounds ih =>
    rw [counts]
    by_cases hn : 1 < hashes.length
    · have hhalf := two_mul_ceilDiv_le harity hn
      have hpos := ceilDiv_pos (show 0 < p.arity by omega) hsome
      have hup := @ih (above p.arity p.node hashes) (by rw [length_above]; omega)
        (by rw [length_above]; exact hpos)
      rw [length_above] at hup
      rw [if_pos hn, List.length_cons, climbed_succ, hup]
    · rw [if_neg hn, List.length_nil, climbed_zero]
      omega

theorem tiled (rounds : Nat) (hashes : List Bytes) :
    ((allBlocks p (startsOf p.blockSize (counts p.arity rounds hashes.length)) hashes).map
      Prod.fst).Perm
      ((List.range (counts p.arity rounds hashes.length).sum).map (· * p.blockSize)) := by
  induction rounds generalizing hashes with
  | zero => exact .refl _
  | succ rounds ih =>
    rw [counts]
    by_cases hn : 1 < hashes.length
    · have hup := ih (above p.arity p.node hashes)
      rw [length_above] at hup
      rw [if_pos hn, startsOf, allBlocks, List.map_append, List.sum_cons, Nat.add_comm,
        List.range_add, List.map_append]
      have hhere : (blocksAt p ((counts p.arity rounds (hashes.length ⌈/⌉ p.arity)).sum *
          p.blockSize) hashes (hashes.length ⌈/⌉ p.arity)).map Prod.fst =
          ((List.range (hashes.length ⌈/⌉ p.arity)).map
            ((counts p.arity rounds (hashes.length ⌈/⌉ p.arity)).sum + ·)).map
              (· * p.blockSize) := by
        rw [blocksAt, List.map_map, List.map_map]
        refine List.map_congr_left fun i _ => ?_
        show _ + p.blockSize * i = (_ + i) * p.blockSize
        rw [Nat.add_mul, Nat.mul_comm p.blockSize]
      rw [hhere]
      exact List.perm_append_comm.trans (hup.append_right _)
    · rw [if_neg hn]
      exact .refl _

theorem length_of_mem_allBlocks (hp : p.Exact) {starts : List Nat}
    (hsized : p.Sized hashes) {block : Nat × Bytes}
    (h : block ∈ allBlocks p starts hashes) : block.2.length = p.blockSize := by
  induction starts generalizing hashes with
  | nil => cases h
  | cons start starts ih =>
    rcases List.mem_append.mp h with hhere | hup
    · obtain ⟨i, _, rfl⟩ := List.mem_map.mp hhere
      exact hp.length_pack (hsized.row _ _) (List.length_take_le _ _)
    · exact ih (hp.sized_nodes _ _) hup

/-! ## The whole of `build` -/

theorem holds_nil (p : Shape) (starts : List Nat) :
    Holds p (starts.map fun start => ⟨start, zeros p.blockSize, 0, 0⟩) (zeros p.digestSize) [] := by
  induction starts with
  | nil => rfl
  | cons start starts ih =>
    refine ⟨?_, ?_⟩
    · rw [List.length_nil, Nat.zero_div]
      exact Level.Held.empty start (Nat.zero_mul _) rfl
    · rw [fullNodes, List.length_nil, Nat.zero_div, nodes_zero]
      exact ih

theorem fullBlocks_nil (p : Shape) (starts : List Nat) : fullBlocks p starts [] = [] := by
  induction starts with
  | nil => rfl
  | cons start starts ih =>
    rw [fullBlocks, fullNodes, List.length_nil, Nat.zero_div, nodes_zero, ih]
    rfl

theorem flush_all (hp : p.Exact) {root : Bytes} (hsized : p.Sized hashes)
    (holds : Holds p levels root hashes)
    (hlog : log.Perm (fullBlocks p (levels.map Level.start) hashes)) :
    ∃ log', flush p logWriter levels root log =
        .ok (lastOf p (climbed p levels.length hashes), log') ∧
      log'.Perm (allBlocks p (levels.map Level.start) hashes) := by
  cases levels with
  | nil =>
    rw [flush, holds]
    exact ⟨log, rfl, hlog⟩
  | cons level rest =>
    have hdiv := Nat.div_add_mod hashes.length p.arity
    have hmod := Nat.mod_lt hashes.length hp.arity_pos
    rw [Nat.mul_comm] at hdiv
    obtain ⟨root', log', hflush, rfl, hperm⟩ :=
      flush_ok hp [] holds.1 hsized (by omega) (by omega) holds.2 hlog
    exact ⟨log', hflush, hperm⟩

namespace Descriptor

/-- How many blocks every level has. -/
def sizes (d : Descriptor) : List Nat := counts d.arity d.dataBlocks d.dataBlocks

end Descriptor

section Made

variable {algorithm blockSize dataSize : Nat} {salt data root : Bytes} {d : Descriptor}

theorem Made.layout_ok (made : Made algorithm blockSize salt dataSize root d) :
    d.layout = .ok ⟨startsOf d.blockSize d.sizes, d.sizes.sum * d.blockSize⟩ := by
  have hsize := (not_refused.mp made.accepted).2.2.2
  have hsum : d.sizes.sum ≤ d.dataBlocks - 1 :=
    sum_counts_le (Nat.le_trans (by decide) made.arity_ge) _ _
  have hpos : 0 < d.blockSize := by
    rw [made.blockSize_eq]
    have hblock := (not_refused.mp made.accepted).2.1
    omega
  have hbytes : (d.dataBlocks - 1) * d.blockSize ≤ dataSize := by
    rcases Nat.eq_zero_or_pos d.dataBlocks with hnone | hsome
    · rw [hnone]
      simp
    have hlast := (lt_ceilDiv_iff hpos).mp (show d.dataBlocks - 1 < d.dataBlocks by omega)
    rw [made.dataSize_eq] at hlast
    exact hlast.le
  have htotal := (Nat.mul_le_mul_right d.blockSize hsum).trans hbytes
  have hrange : d.sizes.sum * d.blockSize < 2 ^ 64 := by omega
  exact place_ok hrange

theorem length_leaves (p : Shape) (data : Bytes) (count : Nat) :
    (leaves p data count).length = count := by
  rw [leaves, List.length_map, List.length_range]

theorem length_lastOf (hsized : p.Sized hashes) : (lastOf p hashes).length = p.digestSize := by
  rw [lastOf]
  cases hlast : hashes.getLast? with
  | none => exact length_zeros _
  | some hash => exact hsized hash (List.mem_of_getLast? hlast)

theorem sized_climbed (hp : p.Exact) (hsized : p.Sized hashes)
    (height : Nat) : p.Sized (climbed p height hashes) := by
  induction height generalizing hashes with
  | zero => exact hsized
  | succ height ih => exact ih (hp.sized_nodes _ _)

/-- The hashes of all the data. -/
def allLeaves (p : Shape) (data : Bytes) : List Bytes :=
  leaves p data (data.length ⌈/⌉ p.blockSize)

/-- The root over the data. -/
def rootOf (p : Shape) (d : Descriptor) (data : Bytes) : Bytes :=
  lastOf p (climbed p d.sizes.length (allLeaves p data))

theorem Made.dataBlocks_eq (made : Made algorithm blockSize salt data.length root d) :
    d.dataBlocks = data.length ⌈/⌉ d.blockSize := by
  rw [Descriptor.dataBlocks, made.dataSize_eq]

/-- `build` reads all the data once, writes all blocks of the tree and puts the root in. -/
theorem build_ok (sha : Sha) (made : Made algorithm blockSize salt data.length [] d) :
    ∃ built log, build sha d (fileReader data) logWriter [] [] =
        .ok (built, (List.range d.dataBlocks).map (span d.blockSize data.length), log) ∧
      Made algorithm blockSize salt data.length (rootOf (d.shape sha) d data) built ∧
      log.Perm (allBlocks (d.shape sha) (startsOf d.blockSize d.sizes)
        (allLeaves (d.shape sha) data)) := by
  have hp := made.exact sha
  have hblocks : d.dataBlocks = data.length ⌈/⌉ (d.shape sha).blockSize := made.dataBlocks_eq
  have hstarts : ((startsOf d.blockSize d.sizes).map fun start =>
      (⟨start, zeros (d.shape sha).blockSize, 0, 0⟩ : Level)).map Level.start =
      startsOf d.blockSize d.sizes := by
    rw [List.map_map]
    exact List.map_id _
  have hlength : data.length ⌈/⌉ (d.shape sha).blockSize ≤ 0 + data.length := by
    rw [Nat.zero_add, ceilDiv_le_iff_le_mul]
    · exact Nat.le_mul_of_pos_left _ (hp.blockSize_eq ▸ Nat.mul_pos hp.arity_pos hp.digestSize_pos)
    · exact hp.blockSize_eq ▸ Nat.mul_pos hp.arity_pos hp.digestSize_pos
  obtain ⟨levels, root, log₁, hread, hstarts₁, hholds, hlog₁⟩ :=
    readAll_holds hp (Nat.zero_le _) hlength (holds_nil _ (startsOf d.blockSize d.sizes))
      (by rw [show leaves (d.shape sha) data 0 = [] from rfl, fullBlocks_nil])
  have hsized := sized_leaves hp data (data.length ⌈/⌉ (d.shape sha).blockSize)
  rw [← hstarts₁] at hlog₁
  obtain ⟨log, hflush, hlog⟩ := flush_all hp hsized hholds hlog₁
  have hheight : levels.length = d.sizes.length := by
    rw [← List.length_map Level.start, hstarts₁, List.length_map, List.length_map, length_startsOf]
  rw [hheight] at hflush
  obtain ⟨built, hbuilt, hmade⟩ := made.withRoot
    (length_lastOf (sized_climbed hp hsized d.sizes.length))
  refine ⟨built, log, ?_, hmade, ?_⟩
  · rw [build, made.layout_ok, made.dataSize_eq]
    rw [Nat.zero_mul, Nat.zero_min] at hread
    show (readAll (d.shape sha) data.length (fileReader data) logWriter data.length 0
      ((startsOf d.blockSize d.sizes).map fun start =>
        ⟨start, zeros (d.shape sha).blockSize, 0, 0⟩, zeros (d.shape sha).digestSize,
        (List.range 0).map (span (d.shape sha).blockSize data.length), []) >>= _) = _
    rw [hread]
    show (flush (d.shape sha) logWriter levels root log₁ >>= _) = _
    rw [hflush]
    show (d.withRoot _ >>= _) = _
    rw [hbuilt, hblocks]
    rfl
  · rw [hstarts₁, hstarts] at hlog
    exact hlog

end Made

end Kinakaze.Verity
