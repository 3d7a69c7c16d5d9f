import Mathlib.Tactic.Common

/-!
# A ring of bounded length

A ring keeps `length` elements in an array of `capacity` slots, from slot
`head` on and past the end of the array from slot 0.  Both ends copy in two
pieces where the elements wrap around.
-/

namespace Kinakaze.Library

structure RingBuffer (α : Type) where
  slots : Nat → α
  head : Nat
  length : Nat

namespace RingBuffer

variable {α : Type}

/-- `slots[start..start + count]`. -/
def slice (slots : Nat → α) (start count : Nat) : List α :=
  (List.range count).map fun i => slots (start + i)

/-- `slots[start..start + xs.len()].copy_from_slice(xs)`. -/
def copyIn (slots : Nat → α) (start : Nat) (xs : List α) : Nat → α := fun i =>
  if h : start ≤ i ∧ i - start < xs.length then xs[i - start] else slots i

/-- The elements in order. -/
def contents (r : RingBuffer α) (capacity : Nat) : List α :=
  (List.range r.length).map fun i => r.slots ((r.head + i) % capacity)

/-- The positions are in the array. -/
structure InBounds (r : RingBuffer α) (capacity : Nat) : Prop where
  head : r.head < capacity
  length : r.length ≤ capacity

/-- Take `count` elements off the front, in two pieces. -/
def pop (r : RingBuffer α) (capacity count : Nat) : List α × RingBuffer α :=
  let first := min count (capacity - r.head)
  (slice r.slots r.head first ++ slice r.slots 0 (count - first),
    { r with head := (r.head + count) % capacity, length := r.length - count })

/-- Put elements behind the last, in two pieces. -/
def push (r : RingBuffer α) (capacity : Nat) (xs : List α) : RingBuffer α :=
  let tail := (r.head + r.length) % capacity
  let first := min xs.length (capacity - tail)
  { r with
    slots := copyIn (copyIn r.slots tail (xs.take first)) 0 (xs.drop first)
    length := r.length + xs.length }

@[simp] theorem length_contents (r : RingBuffer α) (capacity : Nat) :
    (r.contents capacity).length = r.length := by
  simp [contents]

/-- A position that wraps around at most once. -/
theorem wrap (position capacity : Nat) (h : position < 2 * capacity) :
    position % capacity = if position < capacity then position else position - capacity := by
  split_ifs with hlt
  · exact Nat.mod_eq_of_lt hlt
  · rw [Nat.mod_eq_sub_mod (by omega), Nat.mod_eq_of_lt (by omega)]

variable {r : RingBuffer α} {capacity : Nat} {count start i : Nat}

/-- The elements taken are the first of the ring. -/
theorem pop_fst (h : r.InBounds capacity) (hcount : count ≤ r.length) :
    (r.pop capacity count).1 = (r.contents capacity).take count := by
  have hhead := h.head
  have hlength := h.length
  refine List.ext_getElem ?_ fun i hi hi' => ?_
  · simp only [pop, slice, List.length_append, List.length_map, List.length_range,
      List.length_take, length_contents]
    omega
  have hlt : i < count := by
    simp only [List.length_take, length_contents] at hi'
    omega
  simp only [pop, slice, contents, List.getElem_append, List.getElem_map, List.getElem_range,
    List.getElem_take, List.length_map, List.length_range]
  rw [wrap _ _ (by omega)]
  split_ifs
  · rfl
  · omega
  · omega
  · congr 1
    omega

/-- What is left is the rest of the ring. -/
theorem contents_pop (h : r.InBounds capacity) (hcount : count ≤ r.length) :
    (r.pop capacity count).2.contents capacity = (r.contents capacity).drop count := by
  refine List.ext_getElem (by simp [pop]) fun i hi hi' => ?_
  simp only [pop, contents, List.getElem_map, List.getElem_range, List.getElem_drop]
  rw [Nat.mod_add_mod, Nat.add_assoc]

variable {xs : List α} {slots : Nat → α}

theorem copyIn_of_lt (hstart : start ≤ i)
    (hlt : i - start < xs.length) : copyIn slots start xs i = xs[i - start] := by
  rw [copyIn, dif_pos ⟨hstart, hlt⟩]

theorem copyIn_of_not
    (h : start ≤ i → xs.length ≤ i - start) : copyIn slots start xs i = slots i := by
  rw [copyIn, dif_neg]
  rintro ⟨hstart, hlt⟩
  exact absurd (h hstart) (by omega)

theorem pop_inBounds (h : r.InBounds capacity) (hcount : count ≤ r.length) :
    (r.pop capacity count).2.InBounds capacity where
  head := Nat.mod_lt _ (Nat.lt_of_le_of_lt (Nat.zero_le _) h.head)
  length := Nat.le_trans (Nat.sub_le _ _) h.length

/-- A position past the end of the array is one array too far. -/
theorem wrap_cases (position capacity : Nat) (h : position < 2 * capacity) :
    position < capacity ∧ position % capacity = position ∨
      capacity ≤ position ∧ position % capacity + capacity = position := by
  rw [wrap _ _ h]
  split_ifs with hlt
  · exact .inl ⟨hlt, rfl⟩
  · exact .inr ⟨Nat.not_lt.mp hlt, Nat.sub_add_cancel (Nat.not_lt.mp hlt)⟩

/-- What is put in fits before the end of the array, or its first piece ends there. -/
theorem first_cases {length tail : Nat} (htail : tail < capacity) :
    tail + length ≤ capacity ∧ min length (capacity - tail) = length ∨
      tail + min length (capacity - tail) = capacity ∧ min length (capacity - tail) ≤ length := by
  rcases Nat.le_total length (capacity - tail) with hle | hle
  · rw [Nat.min_eq_left hle]
    exact .inl ⟨Nat.add_le_of_le_sub' (Nat.le_of_lt htail) hle, rfl⟩
  · rw [Nat.min_eq_right hle]
    exact .inr ⟨Nat.add_sub_of_le (Nat.le_of_lt htail), hle⟩

/-- Elements put in follow those that were there. -/
theorem contents_push (h : r.InBounds capacity) (hroom : xs.length ≤ capacity - r.length) :
    (r.push capacity xs).contents capacity = r.contents capacity ++ xs := by
  have hsum : r.length + xs.length ≤ capacity := Nat.add_le_of_le_sub' h.length hroom
  have hhead := h.head
  clear hroom
  refine List.ext_getElem (by simp [push]) fun i hi hi' => ?_
  have hlt : i < r.length + xs.length := by simpa [push] using hi
  have hposition := wrap_cases (r.head + i) capacity (by omega)
  have htail := wrap_cases (r.head + r.length) capacity (by omega)
  have hfirst := @first_cases capacity xs.length _
    (Nat.mod_lt (r.head + r.length) (Nat.zero_lt_of_lt hhead))
  simp only [push, contents, List.getElem_map, List.getElem_range, List.getElem_append,
    List.length_map, List.length_range]
  generalize (r.head + i) % capacity = position at hposition
  generalize (r.head + r.length) % capacity = tail at htail hfirst
  generalize min xs.length (capacity - tail) = first at hfirst
  by_cases hold : i < r.length
  · -- An element that was there lies in neither piece.
    rw [dif_pos hold, copyIn_of_not, copyIn_of_not]
    · rw [List.length_take]
      omega
    · rw [List.length_drop]
      omega
  rw [dif_neg hold]
  obtain ⟨j, rfl⟩ := Nat.exists_eq_add_of_le (Nat.not_lt.mp hold)
  by_cases hpiece : j < first
  · -- The first piece, up to the end of the array.
    have hat : position = tail + j := by omega
    subst hat
    rw [copyIn_of_not, copyIn_of_lt, List.getElem_take]
    · congr 1
      omega
    · omega
    · rw [List.length_take]
      omega
    · rw [List.length_drop]
      omega
  · -- The second piece, from the start of the array.
    have hat : first + position = j := by omega
    subst hat
    rw [copyIn_of_lt (Nat.zero_le _), List.getElem_drop]
    · congr 1
      omega
    · rw [List.length_drop]
      omega

theorem push_inBounds (h : r.InBounds capacity)
    (hroom : xs.length ≤ capacity - r.length) : (r.push capacity xs).InBounds capacity where
  head := h.head
  length := by
    have hlength := h.length
    simp only [push]
    omega

end RingBuffer

end Kinakaze.Library
