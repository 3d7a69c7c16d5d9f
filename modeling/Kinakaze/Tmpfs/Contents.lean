import Kinakaze.Tmpfs.Volume

/-!
# The bytes of the files of a volume

A file's byte is found through the slot of its page.
-/

namespace Kinakaze.Tmpfs

open Library

/-- The slot of a page, by file and page. -/
def State.slot (s : State) (a : Nat × Nat) : Option Nat :=
  s.nodes[a.1]?.bind fun n => n.pages[a.2]?

/-- The slots when the file has this node. -/
def State.slotWith (s : State) (id : Nat) (n : Node) (a : Nat × Nat) : Option Nat :=
  if a.1 = id then n.pages[a.2]? else s.slot a

theorem slot_insert (s : State) (id : Nat) (n : Node) :
    ({ s with nodes := s.nodes.insert id n } : State).slot = s.slotWith id n := by
  funext a
  rw [State.slot, State.slotWith, get_insert]
  by_cases heq : id = a.1
  · rw [if_pos heq, if_pos heq.symm, Option.bind_some]
  · rw [if_neg heq, if_neg (Ne.symm heq)]
    rfl

variable {s s' : State}

theorem slotWith_self {id : Nat} {n : Node} (hn : s.nodes[id]? = some n) :
    s.slotWith id n = s.slot := by
  funext a
  rw [State.slotWith]
  split
  · next heq => rw [State.slot, heq, hn, Option.bind_some]
  · rfl

/-- A byte of a file; a page without a slot is zero. -/
def content (slot : Nat × Nat → Option Nat) (view : Nat → BitVec 8) (id i : Nat) : BitVec 8 :=
  match slot (id, i / PAGE) with
  | some x => view (x * PAGE + i % PAGE)
  | none => 0

theorem zero_eq_store (view : Nat → BitVec 8) (address count : Nat) :
    zero view address count = store view address (List.replicate count 0) := by
  funext a
  rw [zero, store, List.length_replicate]
  refine ite_congr rfl (fun hin => ?_) fun _ => rfl
  rw [List.getD_eq_getElem?_getD, List.getElem?_replicate]
  split <;> rfl

theorem page_of {page i : Nat} (hlow : page * PAGE ≤ i) (hhigh : i < page * PAGE + PAGE) :
    i / PAGE = page :=
  Nat.div_eq_of_lt_le hlow (by rw [Nat.succ_mul]; exact hhigh)

section Content

variable {free : List Nat} {next : Nat} {slot : Nat × Nat → Option Nat}
  (h : Partition free next slot) {view : Nat → BitVec 8}

include h

theorem content_store {id page x offset : Nat} (hx : slot (id, page) = some x)
    {bytes : List (BitVec 8)} (hfits : offset + bytes.length ≤ PAGE) (id' i : Nat) :
    content slot (store view (x * PAGE + offset) bytes) id' i =
      if id' = id ∧ page * PAGE + offset ≤ i ∧ i < page * PAGE + offset + bytes.length then
        bytes.getD (i - (page * PAGE + offset)) 0
      else content slot view id' i := by
  have hmod : i % PAGE < PAGE := Nat.mod_lt _ (by decide)
  have hdiv := Nat.div_add_mod' i PAGE
  unfold content
  cases hy : slot (id', i / PAGE) with
  | none =>
    rw [if_neg]
    rintro ⟨rfl, hlow, hhigh⟩
    have hpage : i / PAGE = page := page_of (by omega) (by omega)
    rw [hpage, hx] at hy
    cases hy
  | some y =>
    show store view (x * PAGE + offset) bytes (y * PAGE + i % PAGE) = _
    unfold store
    by_cases hsame : y = x
    · rw [hsame] at hy ⊢
      have hkey := h.injective hy hx
      have hid : id' = id := congrArg Prod.fst hkey
      have hpage : i / PAGE = page := congrArg Prod.snd hkey
      rw [← hpage]
      refine ite_congr (propext ⟨?_, ?_⟩) (fun _ => ?_) fun _ => rfl
      · rintro ⟨hlow, hhigh⟩
        exact ⟨hid, by omega, by omega⟩
      · rintro ⟨-, hlow, hhigh⟩
        exact ⟨by omega, by omega⟩
      · congr 1
        omega
    · rw [if_neg, if_neg]
      · rintro ⟨rfl, hlow, hhigh⟩
        have hpage : i / PAGE = page := page_of (by omega) (by omega)
        rw [hpage, hx] at hy
        cases hy
        exact hsame rfl
      · rintro ⟨hlow, hhigh⟩
        have hfirst : (y * PAGE + i % PAGE) / PAGE = y := page_of (by omega) (by omega)
        have hsecond : (y * PAGE + i % PAGE) / PAGE = x := page_of (by omega) (by omega)
        exact hsame (hfirst.symm.trans hsecond)

theorem content_take {a : Nat × Nat} (hnone : slot a = none) {x : Nat}
    (hx : ∀ b y, slot b = some y → x ≠ y) (id i : Nat) :
    content (fun b => if b = a then some x else slot b) (zero view (x * PAGE) PAGE) id i =
      content slot view id i := by
  have hmod : i % PAGE < PAGE := Nat.mod_lt _ (by decide)
  unfold content
  beta_reduce
  by_cases heq : (id, i / PAGE) = a
  · rw [if_pos heq, heq, hnone]
    show zero view (x * PAGE) PAGE (x * PAGE + i % PAGE) = 0
    rw [zero, if_pos]
    omega
  rw [if_neg heq]
  cases hy : slot (id, i / PAGE) with
  | none => rfl
  | some y =>
    have hne := hx _ _ hy
    show zero view (x * PAGE) PAGE (y * PAGE + i % PAGE) = _
    rw [zero, if_neg]
    rintro ⟨hlow, hhigh⟩
    have hfirst : (y * PAGE + i % PAGE) / PAGE = y := page_of (by omega) (by omega)
    have hsecond : (y * PAGE + i % PAGE) / PAGE = x := page_of (by omega) (by omega)
    exact hne (hsecond.symm.trans hfirst)

end Content

/-! ## Allocation -/

/-- What an operation keeps: the slots are parted, and lie within the view. -/
structure Held (s : State) (slot : Nat × Nat → Option Nat) : Prop where
  slots : Partition s.free s.pageNext slot
  bound : s.pageNext ≤ s.capacity / PAGE
  limit : s.limit ≤ s.capacity

/-- An allocation changes the free slots and their bound only. -/
structure Same (s s' : State) : Prop where
  nodes : s'.nodes = s.nodes
  limit : s'.limit = s.limit
  capacity : s'.capacity = s.capacity
  next : s'.next = s.next

theorem Same.refl (s : State) : Same s s := ⟨rfl, rfl, rfl, rfl⟩

theorem Same.trans {s'' : State} (h : Same s s') (h' : Same s' s'') : Same s s'' :=
  ⟨h'.nodes.trans h.nodes, h'.limit.trans h.limit, h'.capacity.trans h.capacity,
    h'.next.trans h.next⟩

variable {slot : Nat × Nat → Option Nat} {a : Nat × Nat}

theorem Held.page (h : Held s slot)
    {x : Nat} (hx : slot a = some x) : s.page x = .ok (x * PAGE) := by
  have hlt := h.slots.mapped_lt hx
  have hbound := h.bound
  rw [State.page, if_neg (by omega)]

theorem pop_eq (s : State) : s.pop = ((popSlot s.free s.pageNext).1, { s with
        free := (popSlot s.free s.pageNext).2.1
        pageNext := (popSlot s.free s.pageNext).2.2 }) := by
  unfold State.pop popSlot
  cases s.free.getLast? <;> rfl

/-- An allocation takes a slot that nothing maps, or fails and leaves the view. -/
theorem allocate_spec {w : Work} (h : Held w.state slot) (hnone : slot a = none) (committed : Bool) :
    (∃ x, (w.allocate committed).2 = .ok x ∧ committed = true ∧
        w.state.used < w.state.limit / PAGE ∧
        Held (w.allocate committed).1.state (fun b => if b = a then some x else slot b) ∧
        (∀ b y, slot b = some y → x ≠ y) ∧
        (w.allocate committed).1.view = zero w.view (x * PAGE) PAGE ∧
        Same w.state (w.allocate committed).1.state ∧
        (w.allocate committed).1.state.used = w.state.used + 1) ∨
      ∃ e, (w.allocate committed).2 = .error e ∧ (w.allocate committed).1.view = w.view ∧
        ((w.allocate committed).1 = w ∧ w.state.limit / PAGE ≤ w.state.used ∨
          committed = false ∧ w.state.used < w.state.limit / PAGE) := by
  have hlength := h.slots.length_le
  have hbound := h.bound
  have hquota : w.state.limit / PAGE ≤ w.state.capacity / PAGE := Nat.div_le_div_right h.limit
  unfold Work.allocate
  by_cases hfull : w.state.used ≥ w.state.limit / PAGE
  · rw [if_pos hfull]
    exact .inr ⟨_, rfl, rfl, .inl ⟨rfl, hfull⟩⟩
  rw [if_neg hfull, pop_eq]
  unfold State.used at hfull
  have htake := h.slots.take (a := a) hnone
  have hunmapped : ∀ b y, slot b = some y → (popSlot w.state.free w.state.pageNext).1 ≠ y :=
    fun b y hy => h.slots.pop_unmapped hy
  -- The slot and the new bound lie within the view.
  have hfits : (popSlot w.state.free w.state.pageNext).1 < w.state.capacity / PAGE ∧
      (popSlot w.state.free w.state.pageNext).2.2 ≤ w.state.capacity / PAGE ∧
      (popSlot w.state.free w.state.pageNext).2.2 -
        (popSlot w.state.free w.state.pageNext).2.1.length = w.state.used + 1 := by
    unfold State.used
    rcases popSlot_cases w.state.free w.state.pageNext with ⟨front, x, hfree, hpop⟩ | ⟨hfree, hpop⟩
    · have hx := h.slots.free_lt x (by rw [hfree]; simp)
      have hsum : w.state.free.length = front.length + 1 := by rw [hfree]; simp
      rw [hpop]
      dsimp only
      omega
    · have hzero : w.state.free.length = 0 := by rw [hfree]; rfl
      rw [hpop]
      dsimp only [List.length_nil]
      omega
  dsimp only
  have hpage : State.page
      { w.state with
        free := (popSlot w.state.free w.state.pageNext).2.1
        pageNext := (popSlot w.state.free w.state.pageNext).2.2 }
      (popSlot w.state.free w.state.pageNext).1 =
        .ok ((popSlot w.state.free w.state.pageNext).1 * PAGE) := by
    rw [State.page, if_neg (by dsimp only; omega)]
  rw [hpage]
  cases committed with
  | true =>
    exact .inl ⟨_, rfl, rfl, by unfold State.used; omega, ⟨htake, hfits.2.1, h.limit⟩,
      hunmapped, rfl, ⟨rfl, rfl, rfl, rfl⟩, hfits.2.2⟩
  | false => exact .inr ⟨_, rfl, rfl, .inr ⟨rfl, by unfold State.used; omega⟩⟩

end Kinakaze.Tmpfs
