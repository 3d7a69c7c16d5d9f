import Kinakaze.Library.Rungs
import Mathlib.Data.Nat.Bitwise
import Mathlib.Data.Nat.Log
import Mathlib.Tactic.Ring

/-!
# Size classes of the allocator

`allocation_capacity` rounds a request up, and `canonical_bin_index` finds the bin of what it
returns.  Both read the size bit by bit; `capacityOf` says in arithmetic which capacity a bin has.
-/

namespace Kinakaze.Alloc

open Library

/-! ## The source -/

def ARENA_SIZE : Nat := 16 * 1024 * 1024 * 1024
def SIZE_CLASS_QUANTUM : Nat := 16
def LINEAR_CLASS_LIMIT : Nat := 128
def LINEAR_CLASS_COUNT : Nat := LINEAR_CLASS_LIMIT / SIZE_CLASS_QUANTUM
def SUBCLASSES_PER_DOUBLING : Nat := 8
def SUBCLASS_BITS : Nat := 3
def FIRST_GEOMETRIC_SHIFT : Nat := 7

/-- The arena's size is a power of two, whose trailing zeros are its logarithm. -/
def GEOMETRIC_GROUP_COUNT : Nat := ARENA_SIZE.log2 - FIRST_GEOMETRIC_SHIFT

def FREE_LIST_BIN_COUNT : Nat :=
  LINEAR_CLASS_COUNT + GEOMETRIC_GROUP_COUNT * SUBCLASSES_PER_DOUBLING

/-- The alignment of a `BlockHeader`, which is four `usize`. -/
def HEADER_ALIGN : Nat := 8

/-- `leading_zeros` of a `usize`. -/
def leadingZeros (value : Nat) : Nat := if value = 0 then 64 else 63 - value.log2

def checkedAdd (a b : Nat) : Option Nat := if a + b < 2 ^ 64 then some (a + b) else none

/-- A subtraction, which panics below zero. -/
def sub (a b : Nat) : Option Nat := if b ≤ a then some (a - b) else none

/-- `1usize.checked_shl(shift)`. -/
def checkedShl (shift : Nat) : Option Nat := if shift < 64 then some (1 <<< shift) else none

/-- `value & !(align - 1)`, after the addition. -/
def alignUp (value align : Nat) : Option Nat :=
  (checkedAdd value (align - 1)).map (Nat.ldiff · (align - 1))

/-- The exponent of the power of two below `capacity`. -/
def rangeShift (capacity : Nat) : Option Nat := do
  sub (← sub 64 (leadingZeros (capacity - 1))) 1

def allocationCapacity (size : Nat) : Option Nat := do
  let aligned ← alignUp (max size 1) (max SIZE_CLASS_QUANTUM HEADER_ALIGN)
  if aligned > ARENA_SIZE then none
  else if aligned ≤ LINEAR_CLASS_LIMIT then some aligned
  else
    let step ← checkedShl ((← rangeShift aligned) - SUBCLASS_BITS)
    alignUp aligned step

/-- The index of a capacity above the linear limit, before it is clamped. -/
def geometricIndex (capacity : Nat) : Option Nat := do
  let shift ← rangeShift capacity
  let step := 1 <<< (← sub shift SUBCLASS_BITS)
  let withinRange ← sub ((← sub capacity (1 <<< shift)) / step) 1
  let group ← sub shift FIRST_GEOMETRIC_SHIFT
  pure (LINEAR_CLASS_COUNT + group * SUBCLASSES_PER_DOUBLING + withinRange)

def canonicalBinIndex (capacity : Nat) : Option Nat :=
  if capacity ≤ LINEAR_CLASS_LIMIT then some ((capacity - 1) / SIZE_CLASS_QUANTUM)
  else (geometricIndex capacity).map (min · (FREE_LIST_BIN_COUNT - 1))

def freeBinIndex (capacity : Nat) : Option Nat :=
  canonicalBinIndex ((allocationCapacity capacity).getD ARENA_SIZE)

/-- The capacities of blocks. -/
def Canonical (capacity : Nat) : Prop :=
  ∃ size ≤ ARENA_SIZE, allocationCapacity size = some capacity

/-! ## Bits -/

theorem ldiff_mask (value shift : Nat) :
    Nat.ldiff value (2 ^ shift - 1) = value / 2 ^ shift * 2 ^ shift := by
  refine Nat.eq_of_testBit_eq fun i => ?_
  rw [Nat.testBit_ldiff, Nat.testBit_two_pow_sub_one, Nat.testBit_mul_two_pow, Nat.testBit_div_two_pow]
  by_cases hlow : i < shift
  · simp [hlow, Nat.not_le.mpr hlow]
  · simp [hlow, Nat.not_lt.mp hlow]

theorem alignUp_eq {value shift : Nat} (h : value + 2 ^ shift ≤ 2 ^ 64) :
    alignUp value (2 ^ shift) = some ((value + (2 ^ shift - 1)) / 2 ^ shift * 2 ^ shift) := by
  have hpos := Nat.two_pow_pos shift
  rw [alignUp, checkedAdd, if_pos (by omega), Option.map_some, ldiff_mask]

theorem rangeShift_eq {capacity shift : Nat} (hlow : 2 ^ shift < capacity)
    (hhigh : capacity ≤ 2 ^ (shift + 1)) (hshift : shift < 64) : rangeShift capacity = some shift := by
  have hpos := Nat.two_pow_pos shift
  have hlog : (capacity - 1).log2 = shift :=
    (Nat.log2_eq_iff (by omega)).mpr ⟨by omega, by omega⟩
  have hzeros : leadingZeros (capacity - 1) = 63 - shift := by
    rw [leadingZeros, if_neg (by omega), hlog]
  rw [rangeShift, hzeros, sub, if_pos (by omega), Option.bind_eq_bind, Option.bind_some, sub,
    if_pos (by omega)]
  exact congrArg some (by omega)

/-! ## The capacities, bin by bin -/

/-- What a capacity adds to the one before: 16, and above the linear limit more and more. -/
def stepOf (bin : Nat) : Nat := 2 ^ ((bin - 8) / 8 + 4)

def capacityOf (bin : Nat) : Nat :=
  if bin < 8 then 16 * (bin + 1) else stepOf bin * (9 + (bin - 8) % 8)

variable {bin : Nat}

theorem capacityOf_succ (bin : Nat) : capacityOf (bin + 1) = capacityOf bin + stepOf (bin + 1) := by
  unfold capacityOf stepOf
  by_cases hlinear : bin + 1 < 8
  · rw [if_pos hlinear, if_pos (by omega), Nat.sub_eq_zero_of_le (by omega)]
    omega
  rw [if_neg hlinear]
  by_cases hfirst : bin < 8
  · obtain rfl : bin = 7 := by omega
    rfl
  rw [if_neg hfirst]
  by_cases hgroup : (bin - 8) % 8 = 7
  · rw [show (bin + 1 - 8) / 8 + 4 = (bin - 8) / 8 + 4 + 1 by omega,
      show (bin + 1 - 8) % 8 = 0 by omega, hgroup, Nat.pow_succ]
    omega
  · rw [show (bin + 1 - 8) / 8 = (bin - 8) / 8 by omega,
      show (bin + 1 - 8) % 8 = (bin - 8) % 8 + 1 by omega, ← Nat.add_assoc, Nat.mul_succ]

theorem capacityOf_strictMono : StrictMono capacityOf :=
  strictMono_nat_of_lt_succ fun bin => by
    rw [capacityOf_succ]
    exact Nat.lt_add_of_pos_right (Nat.two_pow_pos _)

theorem capacityOf_linear : capacityOf bin ≤ LINEAR_CLASS_LIMIT ↔ bin < 8 := by
  show capacityOf bin ≤ capacityOf 7 ↔ bin < 8
  rw [capacityOf_strictMono.le_iff_le, Nat.lt_succ_iff]

theorem capacityOf_last : capacityOf (FREE_LIST_BIN_COUNT - 1) = ARENA_SIZE := by decide +kernel

theorem capacityOf_le (h : bin < FREE_LIST_BIN_COUNT) : capacityOf bin ≤ ARENA_SIZE :=
  capacityOf_last ▸ capacityOf_strictMono.monotone (Nat.le_sub_one_of_lt h)

theorem capacityOf_geometric (h : ¬ bin < 8) (hbin : bin < FREE_LIST_BIN_COUNT) :
    ∃ shift k, 7 ≤ shift ∧ shift < 34 ∧ k < 8 ∧ bin = 8 + (shift - 7) * 8 + k ∧
      stepOf bin = 2 ^ (shift - 3) ∧ capacityOf bin = 2 ^ (shift - 3) * (9 + k) := by
  have hcount : FREE_LIST_BIN_COUNT = 224 := by decide +kernel
  refine ⟨(bin - 8) / 8 + 7, (bin - 8) % 8, by omega, by omega, by omega, by omega, rfl, ?_⟩
  rw [capacityOf, if_neg h]
  rfl

theorem pow_shift {shift : Nat} (h : 7 ≤ shift) : 2 ^ shift = 8 * 2 ^ (shift - 3) ∧
    2 ^ (shift + 1) = 16 * 2 ^ (shift - 3) ∧ 16 ≤ 2 ^ (shift - 3) ∧ 16 ∣ 2 ^ (shift - 3) := by
  obtain ⟨rest, rfl⟩ := Nat.exists_eq_add_of_le h
  have hpos := Nat.two_pow_pos rest
  have hstep : 2 ^ (7 + rest - 3) = 16 * 2 ^ rest := by
    rw [show 7 + rest - 3 = 4 + rest by omega, Nat.pow_add]
  have hpow : 2 ^ (7 + rest) = 128 * 2 ^ rest := Nat.pow_add ..
  rw [Nat.pow_succ, hstep, hpow]
  exact ⟨by omega, by omega, by omega, Nat.dvd_mul_right ..⟩

/-! ## Finding the bin -/

theorem index_geometric (h : ¬ bin < 8) (hbin : bin < FREE_LIST_BIN_COUNT) :
    geometricIndex (capacityOf bin) = some bin := by
  obtain ⟨shift, k, hshift, hshift', hk, hnumber, -, hcapacity⟩ := capacityOf_geometric h hbin
  obtain ⟨hpow, hnext, hstep, -⟩ := pow_shift hshift
  have hsplit : capacityOf bin = 2 ^ shift + 2 ^ (shift - 3) * (k + 1) := by
    rw [hcapacity, hpow]
    ring
  have hle : 2 ^ (shift - 3) * (k + 1) ≤ 2 ^ (shift - 3) * 8 := Nat.mul_le_mul_left _ (by omega)
  have hge : 2 ^ (shift - 3) * 1 ≤ 2 ^ (shift - 3) * (k + 1) := Nat.mul_le_mul_left _ (by omega)
  have hrange : rangeShift (capacityOf bin) = some shift :=
    rangeShift_eq (by omega) (by omega) (by omega)
  simp only [geometricIndex, hrange, Option.bind_eq_bind, Option.bind_some, Nat.one_shiftLeft]
  rw [sub, if_pos (by unfold SUBCLASS_BITS; omega), Option.bind_some, sub, if_pos (by omega),
    Option.bind_some, hsplit, Nat.add_sub_cancel_left, SUBCLASS_BITS,
    Nat.mul_div_cancel_left _ (Nat.two_pow_pos _), sub, if_pos (by omega), Option.bind_some, sub,
    if_pos (by unfold FIRST_GEOMETRIC_SHIFT; omega)]
  exact congrArg some hnumber.symm

theorem index_capacityOf (hbin : bin < FREE_LIST_BIN_COUNT) :
    canonicalBinIndex (capacityOf bin) = some bin := by
  unfold canonicalBinIndex
  by_cases hlinear : bin < 8
  · rw [if_pos (capacityOf_linear.mpr hlinear), capacityOf, if_pos hlinear]
    exact congrArg some (by unfold SIZE_CLASS_QUANTUM; omega)
  rw [if_neg (mt capacityOf_linear.mp hlinear), index_geometric hlinear hbin, Option.map_some,
    Nat.min_eq_left (Nat.le_sub_one_of_lt hbin)]

/-! ## Rounding -/

variable {size : Nat}

theorem allocationCapacity_linear (h : FirstAbove capacityOf size bin)
    (hlinear : bin < 8) : (max size 1 + 15) / 16 * 16 = capacityOf bin := by
  have habove := h.above
  rw [capacityOf, if_pos hlinear] at habove ⊢
  rcases Nat.eq_zero_or_pos bin with rfl | hpos
  · omega
  · have hbelow := h.below (bin - 1) (by omega)
    rw [capacityOf, if_pos (by omega)] at hbelow
    omega

theorem allocationCapacity_eq (h : FirstAbove capacityOf size bin)
    (hbin : bin < FREE_LIST_BIN_COUNT) : allocationCapacity size = some (capacityOf bin) := by
  have habove := h.above
  have hbound : capacityOf bin ≤ 2 ^ 34 := capacityOf_le hbin
  have haligned : alignUp (max size 1) (max SIZE_CLASS_QUANTUM HEADER_ALIGN) =
      some ((max size 1 + 15) / 16 * 16) := @alignUp_eq _ 4 (by omega)
  simp only [allocationCapacity, haligned, Option.bind_eq_bind, Option.bind_some]
  by_cases hlinear : bin < 8
  · rw [allocationCapacity_linear h hlinear, if_neg (Nat.not_lt.mpr (capacityOf_le hbin)),
      if_pos (capacityOf_linear.mpr hlinear)]
  have hbelow := h.below (bin - 1) (by omega)
  have hsucc := capacityOf_succ (bin - 1)
  rw [Nat.sub_add_cancel (by omega)] at hsucc
  obtain ⟨shift, k, hshift, hshift', hk, -, hstep, hcapacity⟩ := capacityOf_geometric hlinear hbin
  obtain ⟨hpow, hnext, -, q, hq⟩ := pow_shift hshift
  have hmul : 2 ^ (shift - 3) * (9 + k) = 16 * (q * (8 + k)) + 16 * q := by
    rw [hq]
    ring
  have hgroup : q * 8 ≤ q * (8 + k) ∧ q * (8 + k) ≤ q * 15 :=
    ⟨Nat.mul_le_mul_left _ (by omega), Nat.mul_le_mul_left _ (by omega)⟩
  have hrange : rangeShift ((max size 1 + 15) / 16 * 16) = some shift :=
    rangeShift_eq (by omega) (by omega) (by omega)
  rw [if_neg (by unfold ARENA_SIZE; omega), if_neg (by unfold LINEAR_CLASS_LIMIT; omega), hrange,
    Option.bind_some, checkedShl, SUBCLASS_BITS, if_pos (by omega), Option.bind_some,
    Nat.one_shiftLeft, alignUp_eq (by omega), hcapacity]
  refine congrArg some ((congrArg (· * 2 ^ (shift - 3)) ?_).trans (Nat.mul_comm _ _))
  have hquotient : 2 ^ (shift - 3) * (9 + k + 1) = 2 ^ (shift - 3) * (9 + k) + 2 ^ (shift - 3) :=
    Nat.mul_succ ..
  exact Nat.div_eq_of_lt_le (by rw [Nat.mul_comm (9 + k)]; omega)
    (by rw [Nat.mul_comm (9 + k + 1)]; omega)

theorem step_le (h : FirstAbove capacityOf size bin) (hbin : bin < FREE_LIST_BIN_COUNT)
    (hsize : LINEAR_CLASS_LIMIT < size) : 8 * (capacityOf bin - size) ≤ size := by
  have hgeometric : ¬ bin < 8 := fun hlinear =>
    absurd hsize (Nat.not_lt.mpr (h.above.trans (capacityOf_linear.mpr hlinear)))
  have hbelow := h.below (bin - 1) (by omega)
  have hsucc := capacityOf_succ (bin - 1)
  rw [Nat.sub_add_cancel (by omega)] at hsucc
  obtain ⟨shift, k, -, -, -, -, hstep, hcapacity⟩ := capacityOf_geometric hgeometric hbin
  have hmul : 2 ^ (shift - 3) * 9 ≤ 2 ^ (shift - 3) * (9 + k) := Nat.mul_le_mul_left _ (by omega)
  omega

theorem exists_bin (h : size ≤ ARENA_SIZE) :
    ∃ bin < FREE_LIST_BIN_COUNT, FirstAbove capacityOf size bin := by
  obtain ⟨bin, hle, hfirst⟩ := exists_firstAbove (capacityOf_last ▸ h)
  exact ⟨bin, Nat.lt_of_le_pred (by decide +kernel) hle, hfirst⟩

theorem Canonical.eq_capacityOf {capacity : Nat} (h : Canonical capacity) :
    ∃ bin < FREE_LIST_BIN_COUNT, capacity = capacityOf bin := by
  obtain ⟨size, hsize, hcapacity⟩ := h
  obtain ⟨bin, hbin, hfirst⟩ := exists_bin hsize
  exact ⟨bin, hbin, Option.some.inj (hcapacity.symm.trans (allocationCapacity_eq hfirst hbin))⟩

/-- Requests are rounded up, by an eighth at most above the linear limit, to capacities that are
rounded to themselves, and in order; and each capacity has a bin of its own, in the same order and
in range without the clamp. -/
theorem size_classes_consistent :
    (∀ n ≤ ARENA_SIZE, ∃ c, allocationCapacity n = some c ∧ n ≤ c ∧ c ≤ ARENA_SIZE ∧
      allocationCapacity c = some c ∧ (LINEAR_CLASS_LIMIT < n → 8 * (c - n) ≤ n)) ∧
    (∀ n m c d, n ≤ m → m ≤ ARENA_SIZE → allocationCapacity n = some c →
      allocationCapacity m = some d → c ≤ d) ∧
    (∀ c, Canonical c → ∃ bin < FREE_LIST_BIN_COUNT, canonicalBinIndex c = some bin ∧
      freeBinIndex c = some bin ∧ (LINEAR_CLASS_LIMIT < c → geometricIndex c = some bin)) ∧
    ∀ c d i j, Canonical c → Canonical d → canonicalBinIndex c = some i →
      canonicalBinIndex d = some j → (c < d ↔ i < j) ∧ (c = d ↔ i = j) := by
  have hself : ∀ {bin}, bin < FREE_LIST_BIN_COUNT →
      allocationCapacity (capacityOf bin) = some (capacityOf bin) :=
    allocationCapacity_eq (.self capacityOf_strictMono _)
  refine ⟨fun n hn => ?_, fun n m c d hnm hm hc hd => ?_, fun c hc => ?_,
    fun c d i j hc hd hi hj => ?_⟩
  · obtain ⟨bin, hbin, hfirst⟩ := exists_bin hn
    exact ⟨_, allocationCapacity_eq hfirst hbin, hfirst.above, capacityOf_le hbin, hself hbin,
      step_le hfirst hbin⟩
  · obtain ⟨bin, hbin, hfirst⟩ := exists_bin (hnm.trans hm)
    obtain ⟨bin', hbin', hfirst'⟩ := exists_bin hm
    obtain rfl := Option.some.inj (hc.symm.trans (allocationCapacity_eq hfirst hbin))
    obtain rfl := Option.some.inj (hd.symm.trans (allocationCapacity_eq hfirst' hbin'))
    exact capacityOf_strictMono.monotone (hfirst.mono hfirst' hnm)
  · obtain ⟨bin, hbin, rfl⟩ := hc.eq_capacityOf
    refine ⟨bin, hbin, index_capacityOf hbin, ?_, fun hlimit => ?_⟩
    · rw [freeBinIndex, hself hbin, Option.getD_some, index_capacityOf hbin]
    · exact index_geometric (mt capacityOf_linear.mpr (Nat.not_le.mpr hlimit)) hbin
  · obtain ⟨bin, hbin, rfl⟩ := hc.eq_capacityOf
    obtain ⟨bin', hbin', rfl⟩ := hd.eq_capacityOf
    obtain rfl := Option.some.inj ((index_capacityOf hbin).symm.trans hi)
    obtain rfl := Option.some.inj ((index_capacityOf hbin').symm.trans hj)
    exact ⟨capacityOf_strictMono.lt_iff_lt, capacityOf_strictMono.injective.eq_iff⟩

end Kinakaze.Alloc
