import Mathlib.Data.Set.Card
import Mathlib.Algebra.Order.Ring.Int

/-!
# Times that come round

A first time and a period name the times `first + k * period`; with the period 0
there is only the first.  `elapsed` counts those that are not after `now`
(`elapsed_eq_ncard`), and counting from the next one after some moment on leaves
out what was counted until then (`elapsed_next`).
-/

namespace Kinakaze.Library

variable {first period now later : Int}

/-- The number of times that are not after `now`. -/
def elapsed (first period now : Int) : Nat :=
  if now < first then 0
  else if period = 0 then 1
  else ((now - first) / period).toNat + 1

theorem elapsed_before (h : now < first) : elapsed first period now = 0 := if_pos h

theorem elapsed_once (h : first ≤ now) : elapsed first 0 now = 1 := by
  rw [elapsed, if_neg (Int.not_lt.mpr h), if_pos rfl]

theorem elapsed_cast (hperiod : 0 < period) (h : first ≤ now) :
    (elapsed first period now : Int) = (now - first) / period + 1 := by
  have hpos : 0 ≤ (now - first) / period := Int.ediv_nonneg (by omega) (Int.le_of_lt hperiod)
  rw [elapsed, if_neg (Int.not_lt.mpr h), if_neg (Int.ne_of_gt hperiod), Int.natCast_add,
    Int.toNat_of_nonneg hpos]
  rfl

theorem lt_elapsed_iff (hperiod : 0 < period) (k : Nat) :
    k < elapsed first period now ↔ first + k * period ≤ now := by
  by_cases h : now < first
  · have hmul : 0 ≤ (k : Int) * period := Int.mul_nonneg (Int.natCast_nonneg k) (Int.le_of_lt hperiod)
    rw [elapsed_before h]
    omega
  · have hcast := elapsed_cast hperiod (Int.not_lt.mp h)
    have hdiv := Int.le_ediv_iff_mul_le (a := (k : Int)) (b := now - first) hperiod
    omega

theorem elapsed_eq_ncard (hperiod : 0 ≤ period) : elapsed first period now =
    {k : Nat | first + k * period ≤ now ∧ (period = 0 → k = 0)}.ncard := by
  rcases Int.lt_or_eq_of_le hperiod with hpos | rfl
  · have hset : {k : Nat | first + k * period ≤ now ∧ (period = 0 → k = 0)} =
        ↑(Finset.range (elapsed first period now)) := by
      ext k
      rw [Set.mem_setOf_eq, Finset.mem_coe, Finset.mem_range, lt_elapsed_iff hpos]
      exact ⟨fun h => h.1, fun h => ⟨h, fun hzero => absurd hzero (Int.ne_of_gt hpos)⟩⟩
    rw [hset, Set.ncard_coe_finset, Finset.card_range]
  by_cases h : now < first
  · have hset : {k : Nat | first + k * 0 ≤ now ∧ ((0 : Int) = 0 → k = 0)} = ∅ := by
      ext k
      simp [h]
    rw [elapsed_before h, hset, Set.ncard_empty]
  · have hset : {k : Nat | first + k * 0 ≤ now ∧ ((0 : Int) = 0 → k = 0)} = {0} := by
      ext k
      simp [Int.not_lt.mp h]
    rw [elapsed_once (Int.not_lt.mp h), hset, Set.ncard_singleton]

theorem lt_next (hperiod : 0 < period) : now < first + elapsed first period now * period :=
  Int.not_le.mp fun hle => Nat.lt_irrefl _ ((lt_elapsed_iff hperiod _).mpr hle)

theorem elapsed_mono (hperiod : 0 ≤ period) (hlater : now ≤ later) :
    elapsed first period now ≤ elapsed first period later := by
  rcases Int.lt_or_eq_of_le hperiod with hpos | rfl
  · refine Nat.le_of_not_lt fun hlt => ?_
    have hle := (lt_elapsed_iff hpos _).mp hlt
    exact Int.not_le.mpr (lt_next hpos) (Int.le_trans hle hlater)
  · by_cases h : now < first
    · rw [elapsed_before h]
      exact Nat.zero_le _
    · rw [elapsed_once (Int.not_lt.mp h), elapsed_once (by omega)]

/-- What was counted until `now` is what the times from the next one on leave out. -/
theorem elapsed_next (hperiod : 0 < period) (hlater : now ≤ later) :
    elapsed first period now + elapsed (first + elapsed first period now * period) period later =
      elapsed first period later := by
  refine eq_of_forall_lt_iff fun k => ?_
  by_cases hk : k < elapsed first period now
  · have hmore : elapsed first period now ≤ elapsed first period later :=
      elapsed_mono (Int.le_of_lt hperiod) hlater
    omega
  · obtain ⟨j, rfl⟩ := Nat.exists_eq_add_of_le (Nat.le_of_not_lt hk)
    rw [Nat.add_lt_add_iff_left, lt_elapsed_iff hperiod, lt_elapsed_iff hperiod, Int.natCast_add,
      Int.add_mul, Int.add_assoc]

/-- No more times than moments. -/
theorem elapsed_le (hperiod : 0 ≤ period) (h : first ≤ now) :
    (elapsed first period now : Int) ≤ now - first + 1 := by
  rcases Int.lt_or_eq_of_le hperiod with hpos | rfl
  · rw [elapsed_cast hpos h]
    have hdiv := Int.ediv_le_self period (a := now - first) (by omega)
    omega
  · rw [elapsed_once h]
    omega

end Kinakaze.Library
