import Mathlib.Data.List.Range
import Mathlib.Algebra.Order.Floor.Div

/-!
# Trees over rows of one length

A level of the tree is a list. It is cut into rows of `arity`, of which the last may be short,
and each row makes one element of the level above.

* `row` and `nodes`: the rows of a level, and what the first of them make.
* `nodes_append`: full rows stay the same when more is appended.
-/

namespace Kinakaze.Library

/-! ## Division that rounds up -/

variable {n m c : Nat}

theorem lt_ceilDiv_iff (hm : 0 < m) : c < n ⌈/⌉ m ↔ c * m < n := by
  rw [← not_le, ceilDiv_le_iff_le_mul hm, not_le, Nat.mul_comm]

theorem ceilDiv_eq_of_mul (hm : 0 < m) (h : c * m = n) : n ⌈/⌉ m = c := by
  rw [← h, Nat.mul_comm]
  exact smul_ceilDiv hm c

theorem ceilDiv_eq_succ (hm : 0 < m) (hlow : c * m < n) (hhigh : n ≤ c * m + m) :
    n ⌈/⌉ m = c + 1 := by
  apply le_antisymm
  · rw [ceilDiv_le_iff_le_mul hm, Nat.mul_comm, Nat.succ_mul]
    exact hhigh
  · exact (lt_ceilDiv_iff hm).mpr hlow

/-! ## Rows -/

section Rows

variable {α : Type} (arity : Nat) (node : List α → α)

/-- The row `i` of a level. -/
def row (level : List α) (i : Nat) : List α := (level.drop (i * arity)).take arity

/-- What the first `count` rows make. -/
def nodes (level : List α) (count : Nat) : List α :=
  (List.range count).map fun i => node (row arity level i)

/-- The next level. -/
def above (level : List α) : List α := nodes arity node level (level.length ⌈/⌉ arity)

variable {arity node}

@[simp] theorem length_nodes (level : List α) (count : Nat) :
    (nodes arity node level count).length = count := by
  rw [nodes, List.length_map, List.length_range]

@[simp] theorem length_above (level : List α) :
    (above arity node level).length = level.length ⌈/⌉ arity :=
  length_nodes level _

@[simp] theorem nodes_zero (level : List α) : nodes arity node level 0 = [] := rfl

theorem nodes_succ (level : List α) (count : Nat) : nodes arity node level (count + 1) =
      nodes arity node level count ++ [node (row arity level count)] := by
  rw [nodes, List.range_succ, List.map_append, List.map_singleton, nodes]

variable {i count : Nat} {level : List α}

theorem row_append (h : (i + 1) * arity ≤ level.length)
    (more : List α) : row arity (level ++ more) i = row arity level i := by
  rw [Nat.succ_mul] at h
  have hdrop : i * arity ≤ level.length := by omega
  have htake : arity ≤ (level.drop (i * arity)).length := by
    rw [List.length_drop]
    omega
  rw [row, row, List.drop_append_of_le_length hdrop, List.take_append_of_le_length htake]

theorem nodes_append (h : count * arity ≤ level.length)
    (more : List α) : nodes arity node (level ++ more) count = nodes arity node level count := by
  refine List.map_congr_left fun i hi => ?_
  have hrow : (i + 1) * arity ≤ level.length :=
    (Nat.mul_le_mul_right arity (List.mem_range.mp hi)).trans h
  rw [row_append hrow]

/-- The last row, when it is short, is all that is left. -/
theorem row_eq_drop (h : level.length ≤ i * arity + arity) :
    row arity level i = level.drop (i * arity) := by
  apply List.take_of_length_le
  rw [List.length_drop]
  omega

theorem getElem?_nodes (h : i < count) :
    (nodes arity node level count)[i]? = some (node (row arity level i)) := by
  rw [nodes, List.getElem?_map, List.getElem?_range h, Option.map_some]

theorem getElem?_row (harity : 0 < arity) (level : List α) (i : Nat) :
    (row arity level (i / arity))[i % arity]? = level[i]? := by
  rw [row, List.getElem?_take_of_lt (Nat.mod_lt i harity), List.getElem?_drop,
    Nat.mul_comm, Nat.div_add_mod]

theorem div_lt_ceilDiv (harity : 0 < arity) (h : i < n) : i / arity < n ⌈/⌉ arity :=
  (lt_ceilDiv_iff harity).mpr ((Nat.div_mul_le_self i arity).trans_lt h)

theorem getElem?_above (harity : 0 < arity) (h : i < level.length) :
    (above arity node level)[i / arity]? = some (node (row arity level (i / arity))) :=
  getElem?_nodes (div_lt_ceilDiv harity h)

theorem above_of_mul (harity : 0 < arity)
    (h : count * arity = level.length) : above arity node level = nodes arity node level count := by
  rw [above, ceilDiv_eq_of_mul harity h]

theorem above_of_lt (harity : 0 < arity) (hlow : count * arity < level.length)
    (hhigh : level.length ≤ count * arity + arity) :
    above arity node level = nodes arity node level (count + 1) := by
  rw [above, ceilDiv_eq_succ harity hlow hhigh]

end Rows

end Kinakaze.Library
