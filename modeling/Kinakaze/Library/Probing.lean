import Mathlib.Data.Fintype.Card
import Mathlib.Data.List.TakeWhile
import Mathlib.Data.Set.Card

/-!
# Linear probing

A key is looked for from its home on, slot after slot and around the end, up to the first slot
that was never used.  A slot that was given up stays a tombstone, and is used again.

* `Chained`: no key has two slots, and every key is found from its home.
* `Chained.write`, `Chained.discard`: the table is a map.
* `Chained.write_eq_none_iff`: a write fails exactly in a table full of other keys.
-/

namespace Kinakaze.Library

inductive Slot (K V : Type) where
  | empty
  | tombstone
  | occupied (key : K) (value : V)

variable {K V : Type} {n : Nat} {t t' : Fin n → Slot K V}
  {key k : K} {v w : V} {i j : Fin n} {l : List (Fin n)}

def Slot.isEmpty : Slot K V → Bool
  | .empty => true
  | _ => false

def Slot.isTombstone : Slot K V → Bool
  | .tombstone => true
  | _ => false

def Slot.satisfies (p : K → Bool) : Slot K V → Bool
  | .occupied k _ => p k
  | _ => false

def Slot.entry : Slot K V → Option (K × V)
  | .occupied k v => some (k, v)
  | _ => none

@[simp] theorem Slot.entry_eq_some {s : Slot K V} :
    s.entry = some (k, v) ↔ s = .occupied k v := by
  cases s <;> simp [Slot.entry]

def discardSlots (p : K → Bool) (t : Fin n → Slot K V) : Fin n → Slot K V := fun i =>
  if (t i).satisfies p then .tombstone else t i

/-- How many slots are taken by keys that satisfy `p`. -/
def countSlots (p : K → Bool) (t : Fin n → Slot K V) : Nat :=
  (List.finRange n).countP fun i => (t i).satisfies p

/-- The entries whose keys satisfy `p`, in the order of their slots. -/
def slotEntries (p : K → Bool) (t : Fin n → Slot K V) : List (K × V) :=
  (List.finRange n).filterMap fun i => (t i).entry.filter fun e => p e.1

theorem discardSlots_occupied {p : K → Bool} :
    discardSlots p t i = .occupied k v ↔ t i = .occupied k v ∧ p k = false := by
  unfold discardSlots
  cases hslot : t i with
  | occupied k' v' =>
    cases hp : p k' <;> simp only [Slot.satisfies, hp] <;> constructor <;> intro h
    · cases h
      exact ⟨rfl, hp⟩
    · exact h.1
    · cases h
    · obtain ⟨heq, hk⟩ := h
      cases heq
      simp [hp] at hk
  | empty => simp [Slot.satisfies]
  | tombstone => simp [Slot.satisfies]

theorem countSlots_eq_card (p : K → Bool) : countSlots p t =
    (Finset.univ.filter fun i => (t i).satisfies p = true).card := by
  rw [countSlots, List.countP_eq_length_filter,
    ← List.toFinset_card_of_nodup ((List.nodup_finRange n).filter _)]
  congr 1
  ext i
  simp

theorem countSlots_discard (p : K → Bool) :
    countSlots (fun _ => true) (discardSlots p t) = countSlots (fun k => !p k) t := by
  unfold countSlots
  congr 1
  funext i
  unfold discardSlots
  cases hslot : t i with
  | occupied k v => cases hp : p k <;> simp [Slot.satisfies, hp]
  | empty => simp [Slot.satisfies]
  | tombstone => simp [Slot.satisfies]

theorem length_slotEntries (p : K → Bool) : (slotEntries p t).length = countSlots p t := by
  rw [slotEntries, List.length_filterMap_eq_countP, countSlots]
  congr 1
  funext i
  cases hslot : t i with
  | occupied k v => cases hp : p k <;> simp [Slot.satisfies, Slot.entry, Option.filter, hp]
  | empty => rfl
  | tombstone => rfl

theorem mem_slotEntries {p : K → Bool} :
    (k, v) ∈ slotEntries p t ↔ p k ∧ ∃ i, t i = .occupied k v := by
  simp only [slotEntries, List.mem_filterMap, List.mem_finRange, true_and,
    Option.filter_eq_some_iff, Slot.entry_eq_some]
  exact ⟨fun ⟨i, hi, hp⟩ => ⟨hp, i, hi⟩, fun ⟨hp, i, hi⟩ => ⟨i, hi, hp⟩⟩

/-! ## Probes -/

/-- The slots before the first one that was never used. -/
def usedSlots (t : Fin n → Slot K V) (l : List (Fin n)) : List (Fin n) :=
  l.takeWhile fun i => !(t i).isEmpty

/-- Slots that are used stay used, and so do the slots before them. -/
theorem mem_usedSlots (hused : ∀ j, (t j).isEmpty = false → (t' j).isEmpty = false)
    (hi : (t' i).isEmpty = false)
    (h : i ∈ usedSlots t l ∨ l.find? (fun j => (t j).isEmpty) = some i) : i ∈ usedSlots t' l := by
  induction l with
  | nil => simp [usedSlots] at h
  | cons j l ih =>
    rw [usedSlots, List.takeWhile_cons, List.find?_cons] at h
    rw [usedSlots, List.takeWhile_cons]
    cases hj : (t j).isEmpty with
    | true =>
      obtain rfl : j = i := by simpa [hj] using h
      simp [hi]
    | false =>
      rw [hused j hj]
      rw [hj] at h
      rcases h with h | h
      · rcases List.mem_cons.mp h with rfl | h
        · exact List.mem_cons_self
        · exact List.mem_cons_of_mem _ (ih (.inl h))
      · exact List.mem_cons_of_mem _ (ih (.inr h))

theorem usedSlots_eq_self (h : l.find? (fun j => (t j).isEmpty) = none) : usedSlots t l = l := by
  rw [List.find?_eq_none] at h
  exact List.takeWhile_eq_self_iff.mpr fun i hi => by simpa using h i hi

/-- No key has two slots, and every key is found from its home. -/
structure Chained (probes : K → List (Fin n)) (t : Fin n → Slot K V) : Prop where
  unique : ∀ {i j k v w}, t i = .occupied k v → t j = .occupied k w → i = j
  reached : ∀ {i k v}, t i = .occupied k v → i ∈ usedSlots t (probes k)

variable {probes : K → List (Fin n)}

theorem Chained.empty : Chained probes fun _ => (.empty : Slot K V) :=
  ⟨fun h => by simp at h, fun h => by simp at h⟩

theorem Chained.slotEntries_nodup (h : Chained probes t) {p : K → Bool} :
    ((slotEntries p t).map Prod.fst).Nodup := by
  rw [slotEntries, List.map_filterMap]
  refine (List.nodup_finRange n).filterMap fun i j k hi hj => ?_
  simp only [Option.mem_def, Option.map_eq_some_iff, Option.filter_eq_some_iff, Prod.exists,
    exists_and_right, exists_eq_right, Slot.entry_eq_some] at hi hj
  obtain ⟨⟨v, hi⟩, -⟩ := hi
  obtain ⟨⟨w, hj⟩, -⟩ := hj
  exact h.unique hi hj

/-! ## The table -/

/-- The slots in the order in which they are looked at. -/
def around (n : Nat) [NeZero n] (start : Nat) : List (Fin n) :=
  (List.range n).map fun probe => Fin.ofNat n (start + probe)

theorem mem_around [NeZero n] (start : Nat) (i : Fin n) : i ∈ around n start := by
  have hn := Nat.pos_of_neZero n
  have hlt := Nat.mod_lt start hn
  refine List.mem_map.mpr ⟨(i + (n - start % n)) % n, List.mem_range.mpr (Nat.mod_lt _ hn),
    Fin.ext ?_⟩
  show (start + (i + (n - start % n)) % n) % n = i
  have hsum : start + (i + (n - start % n)) = i + n * (start / n + 1) := by
    have := Nat.div_add_mod start n
    rw [Nat.mul_add]
    omega
  rw [Nat.add_mod_mod, hsum, Nat.add_mul_mod_self_left, Nat.mod_eq_of_lt i.isLt]

variable [DecidableEq K]

def findSlot (t : Fin n → Slot K V) (key : K) : List (Fin n) → Option (Fin n)
  | [] => none
  | i :: l =>
    match t i with
    | .empty => none
    | .occupied k _ => if k = key then some i else findSlot t key l
    | .tombstone => findSlot t key l

/-- The slot to write a key to: its own, or else the first one that is free. -/
def placeSlot (t : Fin n → Slot K V) (key : K) (tombstone : Option (Fin n)) :
    List (Fin n) → Option (Fin n)
  | [] => tombstone
  | i :: l =>
    match t i with
    | .empty => some (tombstone.getD i)
    | .occupied k _ => if k = key then some i else placeSlot t key tombstone l
    | .tombstone => placeSlot t key (tombstone.or (some i)) l

def lookupSlot (probes : K → List (Fin n)) (t : Fin n → Slot K V) (key : K) : Option V :=
  (findSlot t key (probes key)).bind fun i => (t i).entry.map Prod.snd

def writeSlot (probes : K → List (Fin n)) (t : Fin n → Slot K V) (key : K) (v : V) :
    Option (Fin n → Slot K V) :=
  (placeSlot t key none (probes key)).map fun i => Function.update t i (.occupied key v)

theorem findSlot_eq (l : List (Fin n)) : findSlot t key l =
    (usedSlots t l).find? fun i => (t i).satisfies (· = key) := by
  induction l with
  | nil => rfl
  | cons i l ih =>
    rw [findSlot, usedSlots, List.takeWhile_cons]
    cases hslot : t i with
    | empty => simp [Slot.isEmpty]
    | tombstone => simp [Slot.isEmpty, Slot.satisfies, hslot, ih, usedSlots]
    | occupied k v =>
      by_cases hk : k = key <;> simp [Slot.isEmpty, Slot.satisfies, hslot, hk, ih, usedSlots]

theorem placeSlot_eq (tombstone : Option (Fin n)) (l : List (Fin n)) :
    placeSlot t key tombstone l =
      ((usedSlots t l).find? fun i => (t i).satisfies (· = key)).or
        ((tombstone.or ((usedSlots t l).find? fun i => (t i).isTombstone)).or
          (l.find? fun i => (t i).isEmpty)) := by
  induction l generalizing tombstone with
  | nil => simp [placeSlot, usedSlots]
  | cons i l ih =>
    rw [placeSlot, usedSlots, List.takeWhile_cons, List.find?_cons]
    cases hslot : t i with
    | empty => cases tombstone <;> simp [Slot.isEmpty]
    | tombstone =>
      cases tombstone <;>
        simp [Slot.isEmpty, Slot.isTombstone, Slot.satisfies, hslot, ih, usedSlots]
    | occupied k v =>
      by_cases hk : k = key <;>
        simp [Slot.isEmpty, Slot.isTombstone, Slot.satisfies, hslot, hk, ih, usedSlots]

/-! ## The table is a map -/

theorem findSlot_occupied (h : findSlot t key l = some i) : ∃ v, t i = .occupied key v := by
  rw [findSlot_eq] at h
  have := List.find?_some h
  cases hslot : t i <;> simp_all [Slot.satisfies]

theorem Chained.lookup_eq_some (h : Chained probes t) :
    lookupSlot probes t key = some v ↔ ∃ i, t i = .occupied key v := by
  constructor
  · intro hlookup
    obtain ⟨i, hfind, hvalue⟩ := Option.bind_eq_some_iff.mp hlookup
    obtain ⟨w, hslot⟩ := findSlot_occupied hfind
    rw [hslot] at hvalue
    cases hvalue
    exact ⟨i, hslot⟩
  · rintro ⟨i, hslot⟩
    have hsome : (findSlot t key (probes key)).isSome := by
      rw [findSlot_eq, List.find?_isSome]
      exact ⟨i, h.reached hslot, by simp [hslot, Slot.satisfies]⟩
    obtain ⟨j, hfind⟩ := Option.isSome_iff_exists.mp hsome
    obtain ⟨w, hw⟩ := findSlot_occupied hfind
    rw [lookupSlot, hfind]
    obtain rfl := h.unique hw hslot
    simp [hslot, Slot.entry]

/-- Where a write goes: to the slot of the key, or to a free one, when the key has none. -/
theorem Chained.place (h : Chained probes t)
    (hplace : placeSlot t key none (probes key) = some i) :
    (i ∈ usedSlots t (probes key) ∨ (probes key).find? (fun j => (t j).isEmpty) = some i) ∧
      ((∃ v, t i = .occupied key v) ∨ (t i).entry = none ∧ ∀ j v, t j ≠ .occupied key v) := by
  rw [placeSlot_eq, Option.none_or] at hplace
  cases hfind : (usedSlots t (probes key)).find? fun i => (t i).satisfies (· = key) with
  | some j =>
    rw [hfind, Option.some_or] at hplace
    cases hplace
    exact ⟨.inl (List.mem_of_find?_eq_some hfind),
      .inl (findSlot_occupied ((findSlot_eq _).trans hfind))⟩
  | none =>
    have hunheld : ∀ j v, t j ≠ .occupied key v := fun j v hslot => by
      have := List.find?_eq_none.mp hfind j (h.reached hslot)
      simp [hslot, Slot.satisfies] at this
    rw [hfind, Option.none_or] at hplace
    have hfree : ∀ {s : Slot K V}, s.isTombstone ∨ s.isEmpty → s.entry = none := fun {s} hs => by
      cases s <;> simp_all [Slot.isTombstone, Slot.isEmpty, Slot.entry]
    rcases Option.or_eq_some_iff.mp hplace with htomb | ⟨-, hempty⟩
    · exact ⟨.inl (List.mem_of_find?_eq_some htomb),
        .inr ⟨hfree (.inl (by simpa using List.find?_some htomb)), hunheld⟩⟩
    · exact ⟨.inr hempty, .inr ⟨hfree (.inr (by simpa using List.find?_some hempty)), hunheld⟩⟩

theorem Chained.write (h : Chained probes t) (hwrite : writeSlot probes t key v = some t') :
    Chained probes t' ∧
      ∀ k, lookupSlot probes t' k = if k = key then some v else lookupSlot probes t k := by
  obtain ⟨i, hplace, rfl⟩ := Option.map_eq_some_iff.mp hwrite
  obtain ⟨hprobed, hi⟩ := h.place hplace
  have hused : ∀ j, (t j).isEmpty = false →
      (Function.update t i (.occupied key v) j).isEmpty = false := by
    intro j hj
    rw [Function.update_apply]
    split
    · rfl
    · exact hj
  have hother : ∀ {j k w}, j ≠ i → Function.update t i (.occupied key v) j = .occupied k w →
      t j = .occupied k w := fun hj hslot => by rwa [Function.update_of_ne hj] at hslot
  -- the key is in no slot but the one that is written
  have honly : ∀ {j w}, j ≠ i → t j ≠ .occupied key w := by
    intro j w hj hslot
    rcases hi with ⟨u, hu⟩ | ⟨-, hunheld⟩
    · exact hj (h.unique hslot hu)
    · exact hunheld j w hslot
  have hchained : Chained probes (Function.update t i (.occupied key v)) := by
    refine ⟨fun {j j' k w w'} hj hj' => ?_, fun {j k w} hj => ?_⟩
    · by_cases hji : j = i <;> by_cases hji' : j' = i
      · rw [hji, hji']
      · subst hji
        rw [Function.update_self] at hj
        cases hj
        exact absurd (hother hji' hj') (honly hji')
      · subst hji'
        rw [Function.update_self] at hj'
        cases hj'
        exact absurd (hother hji hj) (honly hji)
      · exact h.unique (hother hji hj) (hother hji' hj')
    · by_cases hji : j = i
      · subst hji
        rw [Function.update_self] at hj
        cases hj
        exact mem_usedSlots hused (by simp [Slot.isEmpty]) hprobed
      · exact mem_usedSlots hused (by simp [hj, Slot.isEmpty])
          (.inl (h.reached (hother hji hj)))
  refine ⟨hchained, fun k => ?_⟩
  split
  · next hk =>
    exact hchained.lookup_eq_some.mpr ⟨i, by rw [Function.update_self, hk]⟩
  · next hk =>
    refine Option.ext fun w => ?_
    rw [hchained.lookup_eq_some, h.lookup_eq_some]
    constructor
    · rintro ⟨j, hj⟩
      by_cases hji : j = i
      · subst hji
        rw [Function.update_self] at hj
        cases hj
        exact absurd rfl hk
      · exact ⟨j, hother hji hj⟩
    · rintro ⟨j, hj⟩
      have hji : j ≠ i := by
        rintro rfl
        rcases hi with ⟨u, hu⟩ | ⟨hvalue, -⟩
        · rw [hj] at hu
          cases hu
          exact hk rfl
        · simp [hj, Slot.entry] at hvalue
      exact ⟨j, by rwa [Function.update_of_ne hji]⟩

theorem Chained.discard (h : Chained probes t) (p : K → Bool) :
    Chained probes (discardSlots p t) ∧ ∀ k, lookupSlot probes (discardSlots p t) k =
      if p k then none else lookupSlot probes t k := by
  have hchained : Chained probes (discardSlots p t) := by
    refine ⟨fun hi hj => h.unique (discardSlots_occupied.mp hi).1
      (discardSlots_occupied.mp hj).1, fun hi => ?_⟩
    refine mem_usedSlots (fun j hj => ?_) (by simp [hi, Slot.isEmpty])
      (.inl (h.reached (discardSlots_occupied.mp hi).1))
    unfold discardSlots
    split
    · rfl
    · exact hj
  refine ⟨hchained, fun k => Option.ext fun v => ?_⟩
  rw [hchained.lookup_eq_some]
  simp only [discardSlots_occupied]
  split
  · simp_all
  · simp_all [h.lookup_eq_some]

/-- The slot a key is found in is the only one that discarding the key gives up. -/
theorem Chained.update_find (h : Chained probes t)
    (hfind : findSlot t key (probes key) = some i) :
    Function.update t i .tombstone = discardSlots (· = key) t := by
  obtain ⟨v, hslot⟩ := findSlot_occupied hfind
  funext j
  by_cases hj : j = i
  · subst hj
    simp [discardSlots, hslot, Slot.satisfies]
  · rw [Function.update_of_ne hj]
    cases hother : t j with
    | occupied k w =>
      have hk : k ≠ key := by
        rintro rfl
        exact hj (h.unique hother hslot)
      simp [discardSlots, hother, Slot.satisfies, hk]
    | empty => simp [discardSlots, hother, Slot.satisfies]
    | tombstone => simp [discardSlots, hother, Slot.satisfies]

/-! ## Room -/

/-- A write of a new key takes one more slot. -/
theorem Chained.count_write (h : Chained probes t) (hnone : lookupSlot probes t key = none)
    (hwrite : writeSlot probes t key v = some t') :
    countSlots (fun _ => true) t' = countSlots (fun _ => true) t + 1 := by
  obtain ⟨i, hplace, rfl⟩ := Option.map_eq_some_iff.mp hwrite
  have hfree : (t i).satisfies (fun _ => true) = false := by
    rcases (h.place hplace).2 with ⟨w, hw⟩ | ⟨hvalue, -⟩
    · rw [h.lookup_eq_some.mpr ⟨i, hw⟩] at hnone
      cases hnone
    · cases hslot : t i <;> simp_all [Slot.entry, Slot.satisfies]
  have hinsert : (Finset.univ.filter fun j =>
      (Function.update t i (.occupied key v) j).satisfies (fun _ => true) = true) =
      insert i (Finset.univ.filter fun j => (t j).satisfies (fun _ => true) = true) := by
    ext j
    simp only [Finset.mem_filter, Finset.mem_univ, true_and, Finset.mem_insert]
    by_cases hj : j = i
    · subst hj
      simp [Slot.satisfies]
    · simp [hj]
  rw [countSlots_eq_card, countSlots_eq_card, hinsert, Finset.card_insert_of_notMem]
  simp [hfree]

/-- The slots that are taken are as many as the keys that are found. -/
theorem Chained.countSlots_eq_ncard (h : Chained probes t) (p : K → Bool) :
    countSlots p t = Set.ncard {k | p k = true ∧ lookupSlot probes t k ≠ none} := by
  have hkeys : {k | p k = true ∧ lookupSlot probes t k ≠ none} =
      ↑((slotEntries p t).map Prod.fst).toFinset := by
    ext k
    simp only [Set.mem_ofPred_eq, List.coe_toFinset, List.mem_map, Prod.exists, exists_and_right,
      exists_eq_right, mem_slotEntries, Option.ne_none_iff_exists', h.lookup_eq_some]
    exact ⟨fun ⟨hp, v, hi⟩ => ⟨v, hp, hi⟩, fun ⟨v, hp, hi⟩ => ⟨hp, v, hi⟩⟩
  rw [hkeys, Set.ncard_coe_finset, List.toFinset_card_of_nodup h.slotEntries_nodup,
    List.length_map, length_slotEntries]

/-- A write fails exactly in a table full of other keys. -/
theorem Chained.write_eq_none_iff (h : Chained probes t) (hall : ∀ i, i ∈ probes key) :
    writeSlot probes t key v = none ↔
      lookupSlot probes t key = none ∧ countSlots (fun _ => true) t = n := by
  have hfull : countSlots (fun _ => true) t = n ↔ ∀ i, ∃ k v, t i = .occupied k v := by
    have hcount := List.countP_eq_length (l := List.finRange n)
      (p := fun i => (t i).satisfies fun _ => true)
    rw [List.length_finRange] at hcount
    rw [countSlots, hcount]
    simp only [List.mem_finRange, true_implies]
    refine forall_congr' fun i => ?_
    cases hslot : t i <;> simp [Slot.satisfies]
  rw [hfull, writeSlot, Option.map_eq_none_iff]
  constructor
  · intro hplace
    have hslots : ∀ i, ∃ k v, k ≠ key ∧ t i = .occupied k v := by
      rw [placeSlot_eq, Option.none_or, Option.or_eq_none_iff, Option.or_eq_none_iff] at hplace
      obtain ⟨hother, htomb, hempty⟩ := hplace
      rw [usedSlots_eq_self hempty, List.find?_eq_none] at hother htomb
      rw [List.find?_eq_none] at hempty
      intro i
      cases hslot : t i with
      | empty => exact absurd (by simp [hslot, Slot.isEmpty]) (hempty i (hall i))
      | tombstone => exact absurd (by simp [hslot, Slot.isTombstone]) (htomb i (hall i))
      | occupied k u =>
        refine ⟨k, u, fun hk => ?_, rfl⟩
        exact absurd (by simp [hslot, hk, Slot.satisfies]) (hother i (hall i))
    refine ⟨Option.eq_none_iff_forall_ne_some.mpr fun w hw => ?_, fun i => ?_⟩
    · obtain ⟨i, hi⟩ := h.lookup_eq_some.mp hw
      obtain ⟨k, u, hk, hslot⟩ := hslots i
      rw [hi] at hslot
      cases hslot
      exact hk rfl
    · obtain ⟨k, u, -, hslot⟩ := hslots i
      exact ⟨k, u, hslot⟩
  · rintro ⟨hnone, hslots⟩
    refine Option.eq_none_iff_forall_ne_some.mpr fun i hplace => ?_
    obtain ⟨k, u, hslot⟩ := hslots i
    rcases (h.place hplace).2 with ⟨w, hw⟩ | ⟨hvalue, -⟩
    · rw [h.lookup_eq_some.mpr ⟨i, hw⟩] at hnone
      cases hnone
    · simp [hslot, Slot.entry] at hvalue

end Kinakaze.Library
