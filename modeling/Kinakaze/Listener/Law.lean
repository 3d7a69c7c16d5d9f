import Kinakaze.Library.Run
import Kinakaze.Listener.Moves

/-!
# What the slots of a listener keep

* `Generations`, `Order`, `Limits`: the parts of the invariant, each kept by every move.
-/

namespace Kinakaze.Listener

open Library Relation

@[simp] theorem setSlot_slots (b : Bank) (i j : Index) (slot : Slot) :
    (b.setSlot i slot).slots j = if j = i then slot else b.slots j :=
  Function.update_apply _ _ _ _

/-! ## Generations -/

/-- Connections that live at the same time have distinct generations, and no generation lives
again. -/
structure Generations (b : Bank) : Prop where
  positive : ∀ i, (b.slots i).live = true → 0 < (b.slots i).generation
  bounded : ∀ i, (b.slots i).live = true → (b.slots i).generation ≤ b.nextGeneration
  distinct : ∀ i j, (b.slots i).live = true → (b.slots j).live = true →
    (b.slots i).generation = (b.slots j).generation → i = j
  freedOld : ∀ g ∈ b.freed, g ≤ b.nextGeneration
  fresh : ∀ i, (b.slots i).live = true → (b.slots i).generation ∉ b.freed

variable {b b' : Bank}

theorem Generations.setSlot (h : Generations b) (i : Index) (slot : Slot)
    (hkeep : slot.live = true →
      (b.slots i).live = true ∧ slot.generation = (b.slots i).generation) :
    Generations (b.setSlot i slot) := by
  have hold : ∀ j, ((b.setSlot i slot).slots j).live = true → (b.slots j).live = true ∧
      ((b.setSlot i slot).slots j).generation = (b.slots j).generation := by
    intro j hj
    rw [setSlot_slots] at hj ⊢
    split at hj
    · next heq =>
      subst heq
      rw [if_pos rfl]
      exact hkeep hj
    · next hne =>
      rw [if_neg hne]
      exact ⟨hj, rfl⟩
  refine ⟨fun j hj => ?_, fun j hj => ?_, fun j k hj hk heq => ?_, h.freedOld, fun j hj => ?_⟩
  · rw [(hold j hj).2]
    exact h.positive j (hold j hj).1
  · rw [(hold j hj).2]
    exact h.bounded j (hold j hj).1
  · rw [(hold j hj).2, (hold k hk).2] at heq
    exact h.distinct j k (hold j hj).1 (hold k hk).1 heq
  · rw [(hold j hj).2]
    exact h.fresh j (hold j hj).1

variable {i : Index}

theorem Generations.free (h : Generations b)
    (hlive : (b.slots i).live = true) : Generations (b.free i) := by
  have hset := h.setSlot i { b.slots i with state := .free } nofun
  refine ⟨hset.positive, hset.bounded, hset.distinct, ?_, ?_⟩
  · intro g hg
    rcases List.mem_cons.mp hg with rfl | hg
    · exact h.bounded i hlive
    · exact h.freedOld g hg
  · intro j hj hg
    rcases List.mem_cons.mp hg with heq | hg
    · have hslot : (b.free i).slots j = if j = i then { b.slots i with state := .free }
          else b.slots j := setSlot_slots b i j _
      rw [hslot] at hj heq
      split at hj
      · cases hj
      · next hne =>
        rw [if_neg hne] at heq
        exact hne (h.distinct j i hj hlive heq)
    · exact hset.fresh j hj hg

theorem Generations.allocated (h : Generations b) (i : Index) : Generations (b.allocated i) := by
  have hslot : ∀ j, (b.allocated i).slots j =
      if j = i then { state := .syn, generation := b.nextGeneration + 1 } else b.slots j :=
    fun j => setSlot_slots b i j _
  have hnext : (b.allocated i).nextGeneration = b.nextGeneration + 1 := rfl
  -- The old connections have generations below the new one.
  have hold : ∀ j, j ≠ i → ((b.allocated i).slots j).live = true →
      (b.slots j).live = true ∧ (b.slots j).generation ≤ b.nextGeneration := by
    intro j hne hj
    rw [hslot, if_neg hne] at hj
    exact ⟨hj, h.bounded j hj⟩
  refine ⟨fun j hj => ?_, fun j hj => ?_, fun j k hj hk heq => ?_, fun g hg => ?_,
    fun j hj hg => ?_⟩
  · by_cases hji : j = i
    · rw [hslot, if_pos hji]
      exact Nat.succ_pos _
    · rw [hslot, if_neg hji]
      exact h.positive j (hold j hji hj).1
  · rw [hnext]
    by_cases hji : j = i
    · rw [hslot, if_pos hji]
    · rw [hslot, if_neg hji]
      exact Nat.le_succ_of_le (hold j hji hj).2
  · by_cases hji : j = i
    · by_cases hki : k = i
      · rw [hji, hki]
      · have hbound := (hold k hki hk).2
        rw [hslot j, if_pos hji, hslot k, if_neg hki] at heq
        dsimp only at heq
        omega
    · by_cases hki : k = i
      · have hbound := (hold j hji hj).2
        rw [hslot j, if_neg hji, hslot k, if_pos hki] at heq
        dsimp only at heq
        omega
      · rw [hslot j, if_neg hji, hslot k, if_neg hki] at heq
        exact h.distinct j k (hold j hji hj).1 (hold k hki hk).1 heq
  · rw [hnext]
    exact Nat.le_succ_of_le (h.freedOld g hg)
  · have hg' : ((b.allocated i).slots j).generation ∈ b.freed := hg
    by_cases hji : j = i
    · rw [hslot, if_pos hji] at hg'
      exact absurd (h.freedOld _ hg') (Nat.not_succ_le_self _)
    · rw [hslot, if_neg hji] at hg'
      exact h.fresh j (hold j hji hj).1 hg'

/-! ## The order of accepts -/

/-- What was accepted is part of what became ready, in the same order, and what waits comes after
it. -/
structure Order (b : Bank) : Prop where
  old : ∀ g ∈ b.readied, g ≤ b.nextGeneration
  nodup : b.readied.Nodup
  length : b.readied.length = b.nextReady
  syn : ∀ i, (b.slots i).state = .syn → (b.slots i).generation ∉ b.readied
  ready : ∀ i, (b.slots i).state = .ready → 0 < (b.slots i).readyOrder ∧
    b.readied[(b.slots i).readyOrder - 1]? = some (b.slots i).generation
  taken : ∃ m ≤ b.readied.length, b.returned.Sublist (b.readied.take m) ∧
    ∀ i, (b.slots i).state = .ready → m < (b.slots i).readyOrder

theorem Order.setSlot (h : Order b) (i : Index) (slot : Slot)
    (hkeep : slot.pending = true → slot.state = (b.slots i).state ∧
      slot.generation = (b.slots i).generation ∧ slot.readyOrder = (b.slots i).readyOrder) :
    Order (b.setSlot i slot) := by
  have hold : ∀ j, ((b.setSlot i slot).slots j).pending = true →
      ((b.setSlot i slot).slots j).state = (b.slots j).state ∧
      ((b.setSlot i slot).slots j).generation = (b.slots j).generation ∧
      ((b.setSlot i slot).slots j).readyOrder = (b.slots j).readyOrder := by
    intro j hj
    rw [setSlot_slots] at hj ⊢
    split at hj
    · next heq =>
      subst heq
      rw [if_pos rfl]
      exact hkeep hj
    · next hne =>
      rw [if_neg hne]
      exact ⟨rfl, rfl, rfl⟩
  have hsyn : ∀ {s : Slot}, s.state = .syn → s.pending = true := by
    intro s hs
    rw [Slot.pending, hs]
    rfl
  have hready : ∀ {s : Slot}, s.state = .ready → s.pending = true := by
    intro s hs
    rw [Slot.pending, hs]
    rfl
  obtain ⟨m, hm, hsub, hafter⟩ := h.taken
  refine ⟨h.old, h.nodup, h.length, fun j hj => ?_, fun j hj => ?_, m, hm, hsub, fun j hj => ?_⟩
  · obtain ⟨hstate, hgeneration, -⟩ := hold j (hsyn hj)
    rw [hgeneration]
    exact h.syn j (hstate ▸ hj)
  · obtain ⟨hstate, hgeneration, horder⟩ := hold j (hready hj)
    rw [hgeneration, horder]
    exact h.ready j (hstate ▸ hj)
  · obtain ⟨hstate, -, horder⟩ := hold j (hready hj)
    rw [horder]
    exact hafter j (hstate ▸ hj)

theorem Order.allocated (h : Order b) (i : Index) : Order (b.allocated i) := by
  have hslot : ∀ j, (b.allocated i).slots j =
      if j = i then { state := .syn, generation := b.nextGeneration + 1 } else b.slots j :=
    fun j => setSlot_slots b i j _
  have hready : ∀ j, ((b.allocated i).slots j).state = .ready →
      (b.slots j).state = .ready ∧ (b.allocated i).slots j = b.slots j := by
    intro j hj
    rw [hslot] at hj ⊢
    split at hj
    · cases hj
    · next hne => exact ⟨hj, if_neg hne⟩
  obtain ⟨m, hm, hsub, hafter⟩ := h.taken
  refine ⟨fun g hg => Nat.le_succ_of_le (h.old g hg), h.nodup, h.length, fun j hj hg => ?_,
    fun j hj => ?_, m, hm, hsub, fun j hj => ?_⟩
  · have hg' : ((b.allocated i).slots j).generation ∈ b.readied := hg
    rw [hslot] at hj hg'
    split at hj
    · next heq =>
      rw [if_pos heq] at hg'
      exact absurd (h.old _ hg') (Nat.not_succ_le_self _)
    · next hne =>
      rw [if_neg hne] at hg'
      exact h.syn j hj hg'
  · obtain ⟨hstate, heq⟩ := hready j hj
    rw [heq]
    exact h.ready j hstate
  · obtain ⟨hstate, heq⟩ := hready j hj
    rw [heq]
    exact hafter j hstate

theorem live_of_state {s : Slot} {state : SlotState} (h : s.state = state) (hne : state ≠ .free) :
    s.live = true := by
  rw [Slot.live, h]
  exact bne_iff_ne.mpr hne

theorem Order.madeReady (h : Order b) (hg : Generations b)
    (hsyn : (b.slots i).state = .syn) : Order (b.madeReady i) := by
  have hslot : ∀ j, (b.madeReady i).slots j =
      if j = i then { b.slots i with state := .ready, readyOrder := b.nextReady + 1 }
      else b.slots j := fun j => setSlot_slots b i j _
  have hlive := live_of_state hsyn (by decide)
  have hreadied : (b.madeReady i).readied = b.readied ++ [(b.slots i).generation] := rfl
  have hlength : b.readied.length = b.nextReady := h.length
  obtain ⟨m, hm, hsub, hafter⟩ := h.taken
  refine ⟨fun g hin => ?_, ?_, ?_, fun j hj hin => ?_, fun j hj => ?_, m, ?_, ?_, fun j hj => ?_⟩
  · rcases List.mem_append.mp hin with hin | hin
    · exact h.old g hin
    · rw [List.mem_singleton.mp hin]
      exact hg.bounded i hlive
  · exact List.nodup_append.mpr ⟨h.nodup, List.nodup_singleton _, fun g hin g' hin' heq =>
      h.syn i hsyn (by rwa [heq, List.mem_singleton.mp hin'] at hin)⟩
  · rw [hreadied, List.length_append, hlength]
    rfl
  · rw [hslot] at hj hin
    split at hj
    · cases hj
    · next hne =>
      rw [if_neg hne, hreadied] at hin
      rcases List.mem_append.mp hin with hin | hin
      · exact h.syn j hj hin
      · exact hne (hg.distinct j i (live_of_state hj (by decide)) hlive (List.mem_singleton.mp hin))
  · rw [hslot] at hj ⊢
    split at hj
    · next heq =>
      rw [if_pos heq, hreadied]
      refine ⟨Nat.succ_pos _, ?_⟩
      simp [← hlength]
    · next hne =>
      rw [if_neg hne, hreadied]
      obtain ⟨hpos, hat⟩ := h.ready j hj
      refine ⟨hpos, ?_⟩
      rw [List.getElem?_append_left, hat]
      exact (List.getElem?_eq_some_iff.mp hat).1
  · rw [hreadied, List.length_append]
    exact Nat.le_succ_of_le hm
  · rw [hreadied, List.take_append_of_le_length hm]
    exact hsub
  · rw [hslot] at hj ⊢
    split at hj
    · next heq =>
      rw [if_pos heq]
      dsimp only
      omega
    · next hne =>
      rw [if_neg hne]
      exact hafter j hj

theorem Order.madeAccepted (h : Order b) (hg : Generations b) (hready : (b.slots i).state = .ready)
    (hleast : ∀ j, (b.slots j).state = .ready →
      (b.slots i).readyOrder ≤ (b.slots j).readyOrder) : Order (b.madeAccepted i) := by
  have hset := h.setSlot i { b.slots i with state := .accepted } nofun
  obtain ⟨hpos, hat⟩ := h.ready i hready
  obtain ⟨m, hm, hsub, hafter⟩ := h.taken
  have hmi := hafter i hready
  have hin := (List.getElem?_eq_some_iff.mp hat).1
  refine ⟨hset.old, hset.nodup, hset.length, hset.syn, hset.ready, (b.slots i).readyOrder, ?_, ?_,
    fun j hj => ?_⟩
  · change (b.slots i).readyOrder ≤ b.readied.length
    omega
  · change (b.returned ++ [(b.slots i).generation]).Sublist (b.readied.take (b.slots i).readyOrder)
    have htake : b.readied.take (b.slots i).readyOrder =
        b.readied.take ((b.slots i).readyOrder - 1) ++ [(b.slots i).generation] := by
      have hsucc := List.take_add_one (l := b.readied) (i := (b.slots i).readyOrder - 1)
      rw [Nat.sub_add_cancel hpos, hat] at hsucc
      exact hsucc
    rw [htake]
    have hinit : (b.readied.take m).Sublist (b.readied.take ((b.slots i).readyOrder - 1)) :=
      (List.take_prefix_take_left (by omega)).sublist
    exact (hsub.trans hinit).append (List.Sublist.refl _)
  · have hslot : (b.madeAccepted i).slots j =
        if j = i then { b.slots i with state := .accepted } else b.slots j :=
      setSlot_slots b i j _
    rw [hslot] at hj ⊢
    split at hj
    · cases hj
    · next hne =>
      rw [if_neg hne]
      refine lt_of_le_of_ne (hleast j hj) fun heq => hne ?_
      have hatj := (h.ready j hj).2
      rw [← heq, hat] at hatj
      exact hg.distinct j i (live_of_state hj (by decide)) (live_of_state hready (by decide))
        (Option.some.inj hatj).symm

/-! ## Limits -/

structure Limits (b : Bank) : Prop where
  backlog : b.backlog ≤ b.largest
  pending : b.pendingCount ≤ b.largest
  closed : b.closed = true → b.active = false ∧ ∀ i, (b.slots i).pending = false

theorem pending_mono (h : ∀ j, (b'.slots j).pending = true → (b.slots j).pending = true) :
    b'.pendingCount ≤ b.pendingCount :=
  Finset.card_le_card fun j hj =>
    Finset.mem_filter.mpr ⟨Finset.mem_univ j, h j (Finset.mem_filter.mp hj).2⟩

theorem Limits.setSlot (h : Limits b) (i : Index) (slot : Slot)
    (hkeep : slot.pending = true → (b.slots i).pending = true) : Limits (b.setSlot i slot) := by
  have hold : ∀ j, ((b.setSlot i slot).slots j).pending = true → (b.slots j).pending = true := by
    intro j hj
    rw [setSlot_slots] at hj
    split at hj
    · next heq => exact heq ▸ hkeep hj
    · exact hj
  refine ⟨h.backlog, (pending_mono hold).trans h.pending, fun hclosed => ?_⟩
  obtain ⟨hactive, hnone⟩ := h.closed hclosed
  refine ⟨hactive, fun j => ?_⟩
  by_contra hj
  rw [Bool.not_eq_false] at hj
  exact absurd (hold j hj) (by rw [hnone]; exact Bool.false_ne_true)

theorem Limits.allocated (h : Limits b) (hactive : b.active = true)
    (hroom : b.pendingCount < b.backlog) : Limits (b.allocated i) := by
  have hcount : (b.allocated i).pendingCount ≤ b.pendingCount + 1 := by
    refine le_trans (Finset.card_le_card fun j hj => ?_) (Finset.card_insert_le i _)
    have hslot : (b.allocated i).slots j =
        if j = i then { state := .syn, generation := b.nextGeneration + 1 } else b.slots j :=
      setSlot_slots b i j _
    rw [Finset.mem_filter, hslot] at hj
    split at hj
    · next heq => exact heq ▸ Finset.mem_insert_self _ _
    · exact Finset.mem_insert_of_mem (Finset.mem_filter.mpr hj)
  refine ⟨h.backlog, (hcount.trans hroom).trans h.backlog, fun hclosed => ?_⟩
  rw [(h.closed hclosed).1] at hactive
  cases hactive

/-! ## Moves and runs -/

structure Inv (b : Bank) : Prop where
  generations : Generations b
  order : Order b
  limits : Limits b

theorem Move.inv (hmove : Move b b') (h : Inv b) : Inv b' := by
  obtain ⟨hg, ho, hl⟩ := h
  cases hmove with
  | cache children =>
    exact ⟨{ hg with },
      { ho with },
      { hl with }⟩
  | deactivate =>
    exact ⟨{ hg with },
      { ho with },
      ⟨hl.backlog, hl.pending, fun hclosed => ⟨rfl, (hl.closed hclosed).2⟩⟩⟩
  | listen n =>
    exact ⟨{ hg with },
      { ho with },
      ⟨le_max_right _ _, hl.pending.trans (le_max_left _ _), nofun⟩⟩
  | backlog n =>
    exact ⟨{ hg with },
      { ho with },
      ⟨le_max_right _ _, hl.pending.trans (le_max_left _ _), hl.closed⟩⟩
  | free i hlive =>
    have ho' := ho.setSlot i { b.slots i with state := .free } nofun
    have hl' := hl.setSlot i { b.slots i with state := .free } nofun
    exact ⟨hg.free hlive, { ho' with },
      { hl' with }⟩
  | allocate i hactive hfree hroom =>
    exact ⟨hg.allocated i, ho.allocated i, hl.allocated hactive hroom⟩
  | ready i hsyn =>
    have hg' := hg.setSlot i { b.slots i with state := .ready, readyOrder := b.nextReady + 1 }
      fun _ => ⟨live_of_state hsyn (by decide), rfl⟩
    have hl' := hl.setSlot i { b.slots i with state := .ready, readyOrder := b.nextReady + 1 }
      fun _ => by rw [Slot.pending, hsyn]; rfl
    exact ⟨{ hg' with },
      ho.madeReady hg hsyn, { hl' with }⟩
  | accept i hready hleast =>
    have hg' := hg.setSlot i { b.slots i with state := .accepted }
      fun _ => ⟨live_of_state hready (by decide), rfl⟩
    have hl' := hl.setSlot i { b.slots i with state := .accepted } nofun
    exact ⟨{ hg' with },
      ho.madeAccepted hg hready hleast, { hl' with }⟩
  | describe i description =>
    exact ⟨hg.setSlot i _ fun hlive => ⟨hlive, rfl⟩, ho.setSlot i _ fun _ => ⟨rfl, rfl, rfl⟩,
      hl.setSlot i _ fun hpending => hpending⟩
  | close hactive hnone =>
    exact ⟨{ hg with },
      { ho with },
      ⟨hl.backlog, hl.pending, fun _ => ⟨hactive, hnone⟩⟩⟩

theorem Path.inv (hpath : Path b b') (h : Inv b) : Inv b' := by
  induction hpath with
  | refl => exact h
  | tail _ hmove ih => exact hmove.inv ih

theorem step_inv (s : Sys) (call : Nat × Op) (h : Inv s.bank) : Inv (s.step call).bank := by
  have hcache : Move s.bank { s.bank with children := s.caches call.1 } := .cache _
  exact Path.inv (apply_path _ call.2) (hcache.inv h)

theorem start_inv : Inv ({} : Sys).bank where
  generations := ⟨nofun, nofun, nofun, nofun, nofun⟩
  order := ⟨nofun, .nil, rfl, nofun, nofun, 0, Nat.le_refl _, .refl _, nofun⟩
  limits := ⟨Nat.le_refl _, by decide, nofun⟩

/-! ## The law -/

/-- Operations through a view of a connection that is gone fail, and change nothing. -/
def Refused (b : Bank) (v : View) : Prop :=
  b.apply (.through v) = (b, .error EBADF) ∧
    (∀ accepted endpoint sameArena reset, accepted = v ∨ endpoint = v →
      b.apply (.abort accepted endpoint sameArena reset) = (b, .error EBADF)) ∧
    ∀ description, b.apply (.publishOwner v description) = (b, .error EINVAL)

/-- What holds in every state. -/
structure Lawful (b : Bank) : Prop where
  positive : ∀ i, (b.slots i).live = true → 0 < (b.slots i).generation
  bounded : ∀ i, (b.slots i).live = true → (b.slots i).generation ≤ b.nextGeneration
  distinct : ∀ i j, (b.slots i).live = true → (b.slots j).live = true →
    (b.slots i).generation = (b.slots j).generation → i = j
  pending : b.pendingCount ≤ b.largest
  once : b.returned.Nodup
  inOrder : b.returned.Sublist b.readied
  fresh : ∀ i, (b.slots i).live = true → (b.slots i).generation ∉ b.freed
  stale : ∀ v, b.valid v = false → Refused b v
  closed : b.closed = true → ∀ i, (b.slots i).pending = false

theorem stale_refused {v : View} (h : b.valid v = false) : Refused b v := by
  -- An accepted slot of the view's generation would make the view valid.
  have hother : (b.slots v.index).state = .accepted →
      (b.slots v.index).generation ≠ v.generation := by
    intro hstate heq
    have hvalid : b.valid v = true := by
      rw [Bank.valid, live_of_state hstate (by decide), heq]
      exact beq_self_eq_true _
    rw [h] at hvalid
    cases hvalid
  have habort : ∀ endpoint sameArena reset,
      b.abort v endpoint sameArena reset = (b, .error EBADF) := by
    intro endpoint sameArena reset
    refine if_pos ?_
    by_cases hstate : (b.slots v.index).state = .accepted
    · exact .inr (.inl (hother hstate))
    · exact .inl hstate
  refine ⟨?_, ?_, fun description => ?_⟩
  · change (b, b.acquire v) = _
    rw [Bank.acquire, h]
    rfl
  · rintro accepted endpoint sameArena reset (rfl | rfl)
    · exact habort endpoint sameArena reset
    · by_cases heq : endpoint = accepted
      · rw [← heq]
        exact habort endpoint sameArena reset
      · exact if_pos (.inr (.inr (.inr heq)))
  · refine if_pos ?_
    by_cases hstate : (b.slots v.index).state = .accepted
    · exact .inr (.inl (hother hstate))
    · exact .inl hstate

theorem Inv.lawful (h : Inv b) : Lawful b := by
  obtain ⟨m, -, hsub, -⟩ := h.order.taken
  have hin : b.returned.Sublist b.readied := hsub.trans (List.take_sublist _ _)
  exact
    { positive := h.generations.positive
      bounded := h.generations.bounded
      distinct := h.generations.distinct
      pending := h.limits.pending
      once := h.order.nodup.sublist hin
      inOrder := hin
      fresh := h.generations.fresh
      stale := fun _ => stale_refused
      closed := fun hclosed => (h.limits.closed hclosed).2 }

/-- Whatever the processes do with the listener, and whatever its connections become. -/
theorem listener_lawful (calls : List (Nat × Op)) :
    EveryState Sys.step (fun s => Lawful s.bank) {} calls := by
  have hinv : EveryState Sys.step (fun s => Inv s.bank) {} calls :=
    EveryState.of_invariant step_inv calls start_inv
  exact hinv.mono fun s h => h.lawful

/-- A connection is opened, accepted and aborted. -/
def abortedCalls : List (Nat × Op) :=
  [(0, .new 1 (.ok ())), (0, .poll
      { root := .ok ()
        rootPoll := .ok ()
        allocation := ⟨.ok (), .ok ()⟩
        child := fun _ => .ok .established }
      (some (.segment (fun _ => false) true true))),
    (0, .accept),
    (0, .abort ⟨⟨0, by decide⟩, 1⟩ ⟨⟨0, by decide⟩, 1⟩ true (.ok ()))]

/-- It is refused an owner, but not as a bad descriptor. -/
theorem aborted_publishOwner : (run Sys.step {} abortedCalls).bank.returned = [1] ∧
      (run Sys.step {} abortedCalls).bank.valid ⟨⟨0, by decide⟩, 1⟩ = false ∧
      ((run Sys.step {} abortedCalls).bank.apply (.publishOwner ⟨⟨0, by decide⟩, 1⟩ 5)).2 = .error EINVAL ∧
      EINVAL ≠ EBADF := by
  decide

end Kinakaze.Listener
