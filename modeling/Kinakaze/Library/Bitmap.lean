import Mathlib.Algebra.Ring.Nat
import Mathlib.Algebra.Ring.Int.Defs

/-!
# Words of bits

Single bits of a word, the lowest bit set at or above a position, and the least
number of a range with a property.
-/

namespace Kinakaze.Library.Bitmap

variable {w : Nat}

/-- `1 << i`. -/
def bit (w i : Nat) : BitVec w := 1#w <<< i

variable {i j : Nat}

theorem getLsbD_bit (hi : i < w) (j : Nat) : (bit w i).getLsbD j = decide (j = i) := by
  unfold bit
  simp only [BitVec.getLsbD_shiftLeft, BitVec.getLsbD_one]
  by_cases hj : j = i
  · subst hj
    have hpos : 0 < w := by omega
    simp [hi, hpos]
  simp only [hj, decide_false]
  have hdiff : j < i ∨ ¬j - i = 0 := by omega
  cases hdiff with
  | inl h => simp [h]
  | inr h => simp [h]

theorem getLsbD_set (hi : i < w) (x : BitVec w) (j : Nat) :
    (x ||| bit w i).getLsbD j = (x.getLsbD j || decide (j = i)) := by
  rw [BitVec.getLsbD_or, getLsbD_bit hi]

theorem getLsbD_clear (hi : i < w) (x : BitVec w) (hj : j < w) :
    (x &&& ~~~bit w i).getLsbD j = (x.getLsbD j && !decide (j = i)) := by
  rw [BitVec.getLsbD_and, BitVec.getLsbD_not, getLsbD_bit hi]
  simp [hj]

theorem and_bit_eq_zero_iff (hi : i < w) (x : BitVec w) :
    x &&& bit w i = 0 ↔ x.getLsbD i = false := by
  constructor
  · intro h
    have hbit := congrArg (fun y => BitVec.getLsbD y i) h
    simpa [getLsbD_bit hi] using hbit
  · intro h
    apply BitVec.eq_of_getLsbD_eq
    intro j _
    rw [BitVec.getLsbD_and, getLsbD_bit hi]
    by_cases hj : j = i
    · subst hj
      simp [h]
    · simp [hj]

theorem eq_zero_iff (x : BitVec w) : x = 0 ↔ ∀ j, j < w → x.getLsbD j = false := by
  constructor
  · intro h j _
    rw [h]
    exact BitVec.getLsbD_zero
  · intro h
    apply BitVec.eq_of_getLsbD_eq
    intro j hj
    rw [h j hj]
    exact BitVec.getLsbD_zero.symm

/-- The bits of `x` from bit `k` on. -/
def fromBit (x : BitVec w) (k : Nat) : BitVec w := x &&& (BitVec.allOnes w <<< k)

theorem getLsbD_fromBit (x : BitVec w) (k : Nat) (hj : j < w) :
    (fromBit x k).getLsbD j = (x.getLsbD j && decide (k ≤ j)) := by
  unfold fromBit
  rw [BitVec.getLsbD_and, BitVec.getLsbD_shiftLeft, BitVec.getLsbD_allOnes]
  by_cases hk : k ≤ j
  · have hlt : ¬j < k := by omega
    have hsub : j - k < w := by omega
    simp [hj, hk, hlt, hsub]
  · have hlt : j < k := by omega
    simp [hk, hlt]

theorem fromBit_eq_zero {x : BitVec w} {k : Nat} (h : fromBit x k = 0) (hj : j < w)
    (hkj : k ≤ j) : x.getLsbD j = false := by
  have hbit := (eq_zero_iff _).mp h j hj
  rw [getLsbD_fromBit x k hj] at hbit
  simpa [hkj] using hbit

/-- The number of trailing zeros of the bits from `k` on is the first set bit from `k` on. -/
theorem ctz_fromBit {x : BitVec w} {k : Nat} (h : fromBit x k ≠ 0) :
    (fromBit x k).ctz.toNat < w ∧ k ≤ (fromBit x k).ctz.toNat ∧
      x.getLsbD (fromBit x k).ctz.toNat = true ∧
      ∀ j, k ≤ j → j < (fromBit x k).ctz.toNat → x.getLsbD j = false := by
  have hset := BitVec.getLsbD_true_ctz_of_ne_zero h
  have hlt : (fromBit x k).ctz.toNat < w := by
    apply BitVec.lt_of_getLsbD hset
  rw [getLsbD_fromBit x k hlt, Bool.and_eq_true, decide_eq_true_eq] at hset
  refine ⟨hlt, hset.2, hset.1, ?_⟩
  intro j hkj hj
  have hclear := BitVec.getLsbD_false_of_lt_ctz hj
  rw [getLsbD_fromBit x k (Nat.lt_trans hj hlt)] at hclear
  simpa [hkj] using hclear

/-- `answer` is the least number of `[floor, ceiling)` with `p`, if there is one. -/
def LeastIn (p : Nat → Prop) (floor ceiling : Nat) : Option Nat → Prop
  | some n => floor ≤ n ∧ n < ceiling ∧ p n ∧ ∀ k, floor ≤ k → k < n → ¬p k
  | none => ∀ k, floor ≤ k → k < ceiling → ¬p k

variable {p : Nat → Prop} {floor ceiling : Nat} {answer : Option Nat}

/-- A search may start higher when nothing is skipped. -/
theorem LeastIn.lower {mid : Nat} (h : LeastIn p mid ceiling answer) (hmid : floor ≤ mid)
    (hskip : ∀ k, floor ≤ k → k < mid → ¬p k) : LeastIn p floor ceiling answer := by
  cases answer with
  | none =>
    intro k hfloor hceiling
    by_cases hk : k < mid
    · exact hskip k hfloor hk
    · exact h k (by omega) hceiling
  | some n =>
    obtain ⟨hge, hlt, hp, hleast⟩ := h
    refine ⟨Nat.le_trans hmid hge, hlt, hp, ?_⟩
    intro k hfloor hn
    by_cases hk : k < mid
    · exact hskip k hfloor hk
    · exact hleast k (by omega) hn

/-- Blocks of a table, each within its own range of numbers, ascend. -/
theorem ascends_flatMap {α β : Type} {l : List α} {n : α → Nat} {f : α → List (Nat × β)}
    (size base : Nat) (hl : l.Pairwise fun a b => n a < n b)
    (hin : ∀ a ∈ l, ∀ x ∈ f a, base + n a * size ≤ x.1 ∧ x.1 < base + (n a + 1) * size)
    (hf : ∀ a ∈ l, (f a).Pairwise fun x y => x.1 < y.1) :
    (l.flatMap f).Pairwise fun x y => x.1 < y.1 := by
  apply List.pairwise_flatMap.mpr
  refine ⟨hf, ?_⟩
  apply hl.imp_of_mem
  intro a b ha hb hab x hx y hy
  have hupper := (hin a ha x hx).2
  have hlower := (hin b hb y hy).1
  have hblocks : (n a + 1) * size ≤ n b * size := Nat.mul_le_mul_right size hab
  omega

end Kinakaze.Library.Bitmap
