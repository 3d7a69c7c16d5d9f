import Kinakaze.Listener.Bank

/-!
# What the operations do to the slots

Every operation of a listener is a row of moves, each of which changes one slot at most.
-/

namespace Kinakaze.Listener

open Relation

def Bank.allocated (b : Bank) (i : Index) : Bank :=
  { b.setSlot i { state := .syn, generation := b.nextGeneration + 1 } with
    nextGeneration := b.nextGeneration + 1 }

def Bank.madeReady (b : Bank) (i : Index) : Bank :=
  { b.setSlot i { b.slots i with state := .ready, readyOrder := b.nextReady + 1 } with
    nextReady := b.nextReady + 1
    readied := b.readied ++ [(b.slots i).generation] }

def Bank.madeAccepted (b : Bank) (i : Index) : Bank :=
  { b.setSlot i { b.slots i with state := .accepted } with
    returned := b.returned ++ [(b.slots i).generation] }

inductive Move (b : Bank) : Bank → Prop
  | cache (children : List View) : Move b { b with children }
  | deactivate : Move b { b with active := false }
  | listen (n : Nat) : Move b
      { b with active := true, backlog := n, largest := max b.largest n, closed := false }
  | backlog (n : Nat) : Move b { b with backlog := n, largest := max b.largest n }
  | free (i : Index) : (b.slots i).live = true → Move b (b.free i)
  | allocate (i : Index) : b.active = true → (b.slots i).state = .free →
      b.pendingCount < b.backlog → Move b (b.allocated i)
  | ready (i : Index) : (b.slots i).state = .syn → Move b (b.madeReady i)
  | accept (i : Index) : (b.slots i).state = .ready →
      (∀ j, (b.slots j).state = .ready → (b.slots i).readyOrder ≤ (b.slots j).readyOrder) →
      Move b (b.madeAccepted i)
  | describe (i : Index) (description : Nat) :
      Move b (b.setSlot i { b.slots i with description })
  | close : b.active = false → (∀ i, (b.slots i).pending = false) → Move b { b with closed := true }

abbrev Path := ReflTransGen Move

/-! ## Operations without loops -/

theorem child_fst (b : Bank) (i : Index) (generation : Nat) :
    ∃ children, (b.child i generation).1 = { b with children } := by
  unfold Bank.child
  split
  · exact ⟨b.children, rfl⟩
  · dsimp only
    split <;> exact ⟨_, rfl⟩

theorem child_ok {b b' : Bank} {i : Index} {generation : Nat} {result : Except Int View}
    (h : b.child i generation = (b', result)) : ∃ children, b' = { b with children } := by
  obtain ⟨children, hfst⟩ := child_fst b i generation
  rw [h] at hfst
  exact ⟨children, hfst⟩

theorem child_path {b b' : Bank} {i : Index} {generation : Nat} {result : Except Int View}
    (h : b.child i generation = (b', result)) : Path b b' := by
  obtain ⟨children, rfl⟩ := child_ok h
  exact .single (.cache children)

theorem free_path (b : Bank) (i : Index) (generation : Nat) (hlive : (b.slots i).live = true) :
    Path b ((b.free i).forget i generation) :=
  (ReflTransGen.single (.free i hlive)).tail (.cache _)

theorem live_of_pending {s : Slot} (h : s.pending = true) : s.live = true := by
  unfold Slot.pending at h
  unfold Slot.live
  cases hs : s.state <;> simp_all

theorem new_path (b : Bank) (backlog : Nat) (listened : Except Int Unit) :
    Path b (b.new backlog listened).1 := by
  unfold Bank.new
  split
  · exact .refl
  · split
    · exact .refl
    · exact .single (.listen _)

theorem setBacklog_path (b : Bank) (backlog : Nat) : Path b (b.setBacklog backlog).1 := by
  unfold Bank.setBacklog
  split
  · exact .refl
  · exact .single (.backlog _)

theorem publishOwner_path (b : Bank) (accepted : View) (description : Nat) :
    Path b (b.publishOwner accepted description).1 := by
  unfold Bank.publishOwner
  dsimp only
  split
  · exact .refl
  · exact .single (.describe _ _)

theorem abort_path (b : Bank) (accepted endpoint : View) (sameArena : Bool)
    (reset : Except Int Unit) : Path b (b.abort accepted endpoint sameArena reset).1 := by
  unfold Bank.abort
  dsimp only
  split
  · exact .refl
  · next hguard =>
    split
    · exact .refl
    split
    · exact .refl
    refine free_path b _ _ ?_
    rw [not_or, not_not] at hguard
    rw [Slot.live, hguard.1]
    rfl

theorem nextReadySlot_some {b : Bank} {i : Index} (h : b.nextReadySlot = some i) :
    (b.slots i).state = .ready ∧
      ∀ j, (b.slots j).state = .ready → (b.slots i).readyOrder ≤ (b.slots j).readyOrder := by
  have hmem : ∀ {j}, j ∈ ((List.finRange CAPACITY).filter fun i => (b.slots i).state == .ready) ↔
      (b.slots j).state = .ready := by
    intro j
    rw [List.mem_filter, beq_iff_eq]
    exact and_iff_right (List.mem_finRange j)
  refine ⟨hmem.mp (List.argmin_mem h), fun j hj => ?_⟩
  exact List.le_of_mem_argmin (f := fun i => (b.slots i).readyOrder) (hmem.mpr hj) h

theorem accept_path (b : Bank) : Path b b.accept.1 := by
  unfold Bank.accept
  split
  · exact .refl
  split
  · exact .refl
  · next i hnext =>
    obtain ⟨hready, hleast⟩ := nextReadySlot_some hnext
    split
    · next b' e hchild =>
      exact child_path hchild
    · next b' view hchild =>
      obtain ⟨children, rfl⟩ := child_ok hchild
      exact (ReflTransGen.single (.cache children)).tail
        (.accept (b := { b with children }) i hready hleast)

theorem allocate_path (b : Bank) (a : Allocation) (hactive : b.active = true) :
    Path b (b.allocate a).1 := by
  unfold Bank.allocate
  split
  · exact .refl
  · next hroom =>
    split
    · exact .refl
    · next i hfree =>
      split
      · exact .refl
      split
      · exact .refl
      have hstate : (b.slots i).state = .free := by
        have hfound := List.find?_some hfree
        exact beq_iff_eq.mp hfound
      have hmove : Path b (b.allocated i) :=
        .single (.allocate i hactive hstate (Nat.lt_of_not_le hroom))
      dsimp only
      split
      · next b' e hchild =>
        obtain ⟨children, rfl⟩ := child_ok hchild
        exact hmove.tail (.cache children)
      · next b' view hchild =>
        obtain ⟨children, rfl⟩ := child_ok hchild
        split <;> exact hmove.tail (.cache children)

/-! ## Polling -/

theorem finish_path (b : Bank) (env : Environment) (i : Index) (tcp : TcpState) :
    Path b (b.finish env i tcp).1 := by
  unfold Bank.finish
  dsimp only
  split
  · next hready =>
    split
    · exact .refl
    · split
      · exact .refl
      · exact .single (.ready i hready.2)
  · split
    · next hgone => exact free_path b i _ (live_of_pending hgone.2)
    · exact .refl

theorem pollChild_path (b : Bank) (env : Environment) (i : Index) :
    Path b (b.pollChild env i).1 := by
  unfold Bank.pollChild
  split
  · exact .refl
  · exact finish_path b env i _

theorem pollLoop_path (env : Environment) (records : List (Index × Nat)) (b : Bank) :
    Path b (Bank.pollLoop env records b).1 := by
  induction records generalizing b with
  | nil => exact .refl
  | cons record rest ih =>
    obtain ⟨i, generation⟩ := record
    unfold Bank.pollLoop
    split
    · next b' e hchild =>
      exact child_path hchild
    · next b' view hchild =>
      have hpolled := (child_path hchild).trans (pollChild_path b' env i)
      split
      · next b' e hpoll => rwa [hpoll] at hpolled
      · next b' hpoll =>
        rw [hpoll] at hpolled
        exact hpolled.trans (ih b')

theorem rootPoll_path (b : Bank) (polled : Except Int Unit) : Path b (match polled with
    | .error e => (b, (.error e : Except Int (Option Index)))
    | .ok () => (b, .ok none)).1 := by
  split <;> exact .refl

theorem receive_path (b : Bank) (env : Environment) (packet : Packet) :
    Path b (b.receive env packet).1 := by
  have hroot := rootPoll_path b env.rootPoll
  unfold Bank.receive
  cases packet with
  | invalid => exact .refl
  | other => exact hroot
  | segment isFor opens retained =>
    dsimp only
    split
    · next i hfound =>
      split
      · next b' e hchild =>
        exact child_path hchild
      · next b' view hchild =>
        have hpolled := (child_path hchild).trans (pollChild_path b' env i)
        split
        · next b' e hpoll => rwa [hpoll] at hpolled
        · next b' hpoll => rwa [hpoll] at hpolled
    split
    · next hopens =>
      split
      · exact .refl
      split
      · exact .refl
      have hallocated := allocate_path b env.allocation (by simp_all)
      split
      · next b' e hallocate =>
        rw [hallocate] at hallocated
        split <;> exact hallocated
      · next b' i view hallocate =>
        rw [hallocate] at hallocated
        have hpolled := hallocated.trans (pollChild_path b' env i)
        split
        · next b'' e hpoll => rwa [hpoll] at hpolled
        · next b'' hpoll => rwa [hpoll] at hpolled
    · exact hroot

theorem poll_path (b : Bank) (env : Environment) (incoming : Option Packet) :
    Path b (b.poll env incoming).1 := by
  unfold Bank.poll
  cases incoming with
  | none => exact pollLoop_path env _ b
  | some packet =>
    have hreceived := receive_path b env packet
    dsimp only
    split
    · next b' e hcase => rwa [hcase] at hreceived
    · next b' processed hcase =>
      rw [hcase] at hreceived
      exact hreceived.trans (pollLoop_path env _ b')

/-! ## Closing -/

theorem closeLoop_path (polled : Index → Except Int Unit) (records : List (Index × Nat)) (b : Bank)
    (hpending : ∀ record ∈ records, (b.slots record.1).pending = true)
    (hnodup : (records.map Prod.fst).Nodup)
    (hall : ∀ i, (b.slots i).pending = true → i ∈ records.map Prod.fst) :
    Path b (Bank.closeLoop polled records b).1 ∧
      (Bank.closeLoop polled records b).1.active = b.active ∧
      ((Bank.closeLoop polled records b).2 = .ok () →
        ∀ i, ((Bank.closeLoop polled records b).1.slots i).pending = false) := by
  induction records generalizing b with
  | nil =>
    refine ⟨.refl, rfl, fun _ i => ?_⟩
    by_contra hi
    rw [Bool.not_eq_false] at hi
    exact absurd (hall i hi) List.not_mem_nil
  | cons record rest ih =>
    obtain ⟨i, generation⟩ := record
    rw [List.map_cons, List.nodup_cons] at hnodup
    unfold Bank.closeLoop
    split
    · next b' e hchild =>
      obtain ⟨children, rfl⟩ := child_ok hchild
      exact ⟨.single (.cache children), rfl, nofun⟩
    · next b' view hchild =>
      obtain ⟨children, rfl⟩ := child_ok hchild
      have hfirst : Path b { b with children } := .single (.cache children)
      split
      · exact ⟨hfirst, rfl, nofun⟩
      have hlive := live_of_pending (hpending (i, generation) List.mem_cons_self)
      set freed := (Bank.free { b with children } i).forget i generation with hfreed
      have hslots : ∀ j, freed.slots j =
          if j = i then { b.slots i with state := .free } else b.slots j := by
        intro j
        rw [hfreed]
        exact Function.update_apply _ _ _ _
      have hrest := ih freed (fun record hrecord => by
          rw [hslots, if_neg]
          · exact hpending record (List.mem_cons_of_mem _ hrecord)
          · rintro rfl
            exact hnodup.1 (List.mem_map.mpr ⟨record, hrecord, rfl⟩)) hnodup.2 (fun j hj => by
          rw [hslots] at hj
          split at hj
          · cases hj
          · next hne =>
            rcases List.mem_cons.mp (hall j hj) with heq | hin
            · exact absurd heq hne
            · exact hin)
      exact ⟨(hfirst.trans (free_path { b with children } i generation hlive)).trans hrest.1,
        hrest.2.1, hrest.2.2⟩

theorem close_path (b : Bank) (polled : Index → Except Int Unit) : Path b (b.close polled).1 := by
  have hfirst : Path b { b with active := false } := .single .deactivate
  set records := ((List.finRange CAPACITY).filter fun i =>
    (({ b with active := false } : Bank).slots i).pending).map fun i =>
      (i, (({ b with active := false } : Bank).slots i).generation) with hrecords
  have hfst : records.map Prod.fst = (List.finRange CAPACITY).filter fun i =>
      (b.slots i).pending := by
    rw [hrecords, List.map_map]
    exact List.map_id' _
  have hloop := closeLoop_path polled records { b with active := false } (fun record hrecord => by
      have hin := List.mem_map_of_mem (f := Prod.fst) hrecord
      rw [hfst] at hin
      exact (List.mem_filter.mp hin).2)
    (by rw [hfst]; exact (List.nodup_finRange CAPACITY).filter _)
    (fun i hi => by
      rw [hfst]
      exact List.mem_filter.mpr ⟨List.mem_finRange i, hi⟩)
  unfold Bank.close
  dsimp only
  split
  · next b' e hcase =>
    rw [hcase] at hloop
    exact hfirst.trans hloop.1
  · next b' hcase =>
    rw [hcase] at hloop
    exact (hfirst.trans hloop.1).tail (.close hloop.2.1 (hloop.2.2 rfl))

theorem reconcileLoop_path (o : Owners) (records : List (Index × Slot)) (b : Bank) :
    Path b (Bank.reconcileLoop o records b).1 := by
  induction records generalizing b with
  | nil => exact .refl
  | cons record rest ih =>
    obtain ⟨i, slot⟩ := record
    unfold Bank.reconcileLoop
    split
    · exact ih b
    split
    · next b' e hchild =>
      exact child_path hchild
    · next b' view hchild =>
      obtain ⟨children, rfl⟩ := child_ok hchild
      have hfirst : Path b { b with children } := .single (.cache children)
      split
      · exact hfirst
      split
      · have haborted := hfirst.trans (abort_path { b with children } ⟨i, slot.generation⟩
          view true (o.reset i))
        split
        · next b' e habort => rwa [habort] at haborted
        · next b' habort =>
          rw [habort] at haborted
          exact haborted.trans (ih b')
      · exact hfirst.trans (ih _)

theorem reconcileOwners_path (b : Bank) (o : Owners) : Path b (b.reconcileOwners o).1 := by
  have hclosing : Path b (if !o.present.contains o.root && b.active then b.close o.polled
      else (b, .ok ())).1 := by
    split
    · exact close_path b o.polled
    · exact .refl
  unfold Bank.reconcileOwners
  dsimp only
  split
  · next b' e hcase => rwa [hcase] at hclosing
  · next b' hcase =>
    rw [hcase] at hclosing
    exact hclosing.trans (reconcileLoop_path o _ b')

theorem apply_path (b : Bank) (op : Op) : Path b (b.apply op).1 := by
  cases op with
  | new backlog listened => exact new_path b backlog listened
  | accept => exact accept_path b
  | publishOwner accepted description => exact publishOwner_path b accepted description
  | reconcileOwners owners => exact reconcileOwners_path b owners
  | abort accepted endpoint sameArena reset => exact abort_path b accepted endpoint sameArena reset
  | setBacklog backlog => exact setBacklog_path b backlog
  | close polled => exact close_path b polled
  | poll env incoming => exact poll_path b env incoming
  | through view => exact .refl

end Kinakaze.Listener
