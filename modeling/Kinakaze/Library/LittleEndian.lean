import Mathlib.Algebra.Ring.Nat
import Mathlib.Algebra.Ring.Int.Defs
import Mathlib.Data.List.Range

/-!
# Little-endian numbers and rows of fixed length

* `leBytes` and `ofLe`: a number as so many bytes, the least significant first.
* `wordAt` and `bytesOf`: a list of bytes as eight-byte words.
-/

namespace Kinakaze.Library

/-! ## Numbers -/

/-- The `count` low bytes of a number, the least significant first. -/
def leBytes : Nat → Nat → List (BitVec 8)
  | 0, _ => []
  | count + 1, value => BitVec.ofNat 8 value :: leBytes count (value / 256)

/-- The number of which these are the bytes. -/
def ofLe : List (BitVec 8) → Nat
  | [] => 0
  | byte :: rest => byte.toNat + 256 * ofLe rest

@[simp] theorem length_leBytes (count value : Nat) : (leBytes count value).length = count := by
  induction count generalizing value with
  | zero => rfl
  | succ count ih => simp [leBytes, ih]

theorem ofLe_leBytes (count value : Nat) : ofLe (leBytes count value) = value % 256 ^ count := by
  induction count generalizing value with
  | zero => simp [leBytes, ofLe, Nat.mod_one]
  | succ count ih =>
    have hsplit := Nat.mod_mul (x := value) (a := 256) (b := 256 ^ count)
    rw [leBytes, ofLe, ih, BitVec.toNat_ofNat, show 256 ^ (count + 1) = 256 * 256 ^ count from
      Nat.pow_succ', hsplit]

variable {count size : Nat}

theorem ofLe_leBytes_of_lt {value : Nat} (h : value < 256 ^ count) :
    ofLe (leBytes count value) = value := by
  rw [ofLe_leBytes, Nat.mod_eq_of_lt h]

/-- A machine word survives the way through its bytes. -/
theorem ofNat_ofLe_leBytes {width : Nat} (count : Nat) (hwidth : width = 8 * count)
    (value : BitVec width) : BitVec.ofNat width (ofLe (leBytes count value.toNat)) = value := by
  have hlt : value.toNat < 256 ^ count := by
    have hpow : 2 ^ width = 256 ^ count := by rw [hwidth, Nat.pow_mul]
    rw [← hpow]
    exact value.isLt
  rw [ofLe_leBytes_of_lt hlt, BitVec.ofNat_toNat, BitVec.setWidth_eq]

variable {bytes : List (BitVec 8)}

/-- Bytes come back from their number, which may have been stored wider. -/
theorem take_leBytes_ofLe (h : bytes.length ≤ count) :
    (leBytes count (ofLe bytes)).take bytes.length = bytes := by
  induction bytes generalizing count with
  | nil => rfl
  | cons byte rest ih =>
    obtain ⟨count, rfl⟩ : ∃ k, count = k + 1 := ⟨count - 1, by simp at h; omega⟩
    have hlt := byte.isLt
    have hbyte : BitVec.ofNat 8 (byte.toNat + 256 * ofLe rest) = byte := by
      apply BitVec.eq_of_toNat_eq
      rw [BitVec.toNat_ofNat]
      omega
    have hrest : (byte.toNat + 256 * ofLe rest) / 256 = ofLe rest := by omega
    rw [ofLe, leBytes, List.length_cons, List.take_succ_cons, hbyte, hrest, ih (by simpa using h)]

theorem ofLe_lt (bytes : List (BitVec 8)) : ofLe bytes < 256 ^ bytes.length := by
  induction bytes with
  | nil => simp [ofLe]
  | cons byte rest ih =>
    have hlt := byte.isLt
    rw [ofLe, List.length_cons, Nat.pow_succ]
    omega

/-! ## Words -/

/-- The eight-byte word at `index`; the last is filled up with zeros. -/
def wordAt (bytes : List (BitVec 8)) (index : Nat) : BitVec 64 :=
  .ofNat 64 (ofLe ((bytes.drop (8 * index)).take 8))

/-- The first `length` bytes of a list of words. -/
def bytesOf (words : List (BitVec 64)) (length : Nat) : List (BitVec 8) :=
  (words.flatMap fun word => leBytes 8 word.toNat).take length

theorem take_leBytes_wordAt (h : bytes.length ≤ 8) :
    (leBytes 8 (wordAt bytes 0).toNat).take bytes.length = bytes := by
  have hlt : ofLe bytes < 256 ^ 8 :=
    (ofLe_lt bytes).trans_le (Nat.pow_le_pow_right (by decide) h)
  have hnumber : (wordAt bytes 0).toNat = ofLe bytes := by
    rw [wordAt, BitVec.toNat_ofNat, Nat.mul_zero, List.drop_zero, List.take_of_length_le h]
    exact Nat.mod_eq_of_lt hlt
  rw [hnumber, take_leBytes_ofLe h]

/-- Bytes come back from enough of their words. -/
theorem bytesOf_wordAt (h : bytes.length ≤ 8 * count) :
    bytesOf ((List.range count).map (wordAt bytes)) bytes.length = bytes := by
  induction count generalizing bytes with
  | zero =>
    have hnil : bytes = [] := List.length_eq_zero_iff.mp (by omega)
    simp [hnil, bytesOf]
  | succ count ih =>
    have hnext : ∀ index, wordAt bytes (index + 1) = wordAt (bytes.drop 8) index := by
      intro index
      rw [wordAt, wordAt, List.drop_drop, Nat.mul_add, Nat.add_comm]
    have hwords : (List.range (count + 1)).map (wordAt bytes) =
        wordAt bytes 0 :: (List.range count).map (wordAt (bytes.drop 8)) := by
      rw [List.range_succ_eq_map, List.map_cons, List.map_map]
      congr 1
      exact List.map_congr_left fun index _ => hnext index
    rw [bytesOf, hwords, List.flatMap_cons]
    rcases Nat.le_total bytes.length 8 with hshort | hlong
    · rw [List.take_append_of_le_length (by simpa using hshort), take_leBytes_wordAt hshort]
    have htake : (bytes.take 8).length = 8 := by rw [List.length_take]; omega
    have hhead : leBytes 8 (wordAt bytes 0).toNat = bytes.take 8 := by
      have hword := take_leBytes_wordAt htake.le
      rw [htake, List.take_of_length_le (by simp)] at hword
      have hsame : wordAt (bytes.take 8) 0 = wordAt bytes 0 := by
        simp [wordAt, List.take_take]
      rwa [hsame] at hword
    have htail := @ih (bytes.drop 8) (by rw [List.length_drop]; omega)
    rw [bytesOf, List.length_drop] at htail
    rw [hhead, List.take_append, htake, List.take_of_length_le (by omega), htail,
      List.take_append_drop]

/-! ## Rows -/

/-- `chunks_exact`: the full rows of `size` in turn. -/
def chunksExact {α : Type} (size : Nat) (bytes : List α) : List (List α) :=
  (List.range (bytes.length / size)).map fun row => (bytes.drop (row * size)).take size

theorem chunksExact_append {α : Type} {row : List α} (hrow : row.length = size) (hsize : 0 < size)
    (rest : List α) : chunksExact size (row ++ rest) = row :: chunksExact size rest := by
  have hcount : (row ++ rest).length / size = rest.length / size + 1 := by
    rw [List.length_append, hrow, Nat.add_comm, Nat.add_div_right _ hsize]
  rw [chunksExact, hcount, List.range_succ_eq_map, List.map_cons, List.map_map]
  congr 1
  · simp [← hrow]
  refine List.map_congr_left fun index _ => ?_
  have hdrop : (index + 1) * size = row.length + index * size := by
    rw [hrow, Nat.succ_mul, Nat.add_comm]
  simp only [Function.comp, Nat.succ_eq_add_one]
  rw [hdrop, ← List.drop_drop, List.drop_left]

/-- Rows of one length that were joined are cut apart again. -/
theorem chunksExact_flatMap {α β : Type} (hsize : 0 < size) (encode : β → List α)
    (hlength : ∀ b, (encode b).length = size) (values : List β) :
    chunksExact size (values.flatMap encode) = values.map encode := by
  induction values with
  | nil => simp [chunksExact]
  | cons value rest ih =>
    rw [List.flatMap_cons, chunksExact_append (hlength value) hsize, ih, List.map_cons]

theorem length_flatMap_const {α β : Type} {encode : β → List α}
    (hlength : ∀ b, (encode b).length = size) (values : List β) :
    (values.flatMap encode).length = values.length * size := by
  induction values with
  | nil => simp
  | cons value rest ih =>
    rw [List.flatMap_cons, List.length_append, hlength, ih, List.length_cons, Nat.succ_mul,
      Nat.add_comm]

end Kinakaze.Library
