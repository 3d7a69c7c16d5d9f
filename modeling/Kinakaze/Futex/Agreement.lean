import Kinakaze.Futex.Table

/-!
# The optimized paths and the plain ones

The compaction of the table does what the loop does, row by row and call by call.
The early return of `wake` looks for a matching bitset in every row of the key, also
in the rows of PI waiters, whose bitset is a thread number; there the two paths part.
-/

namespace Kinakaze.Futex

variable {W : Type}

/-! ## Passes -/

/-- The pass, after rows that were taken and dropped before. -/
def Pass.after (taken dropped : List Record) (p : Pass W) : Pass W :=
  { p with taken := taken ++ p.taken, dropped := dropped ++ p.dropped }

variable {o : Order W}

theorem retain_stopped {s : Capture W} (hs : s.error.isSome = true ∨ o.count ≤ s.count)
    (rows : List Record) : retain (sweepKeeps o) s rows = (rows, s) := by
  induction rows with
  | nil => rfl
  | cons r rows ih =>
    have hkeeps : sweepKeeps o s r = (true, s) := by
      unfold sweepKeeps
      rw [if_pos]
      rcases hs with hs | hs <;> simp [hs]
    simp only [retain, hkeeps, ih]

theorem retain_sweepKeeps (o : Order W) (rows : List Record) (s : Capture W) (hs : s.error = none) :
    (retain (sweepKeeps o) s rows).2.finish (retain (sweepKeeps o) s rows).1 =
      (sweep o rows s.count s.world).after s.taken s.dropped := by
  induction rows generalizing s with
  | nil => simp [retain, sweep, Capture.finish, Pass.after, hs]
  | cons r rows ih =>
    by_cases hcount : s.count < o.count
    · by_cases hpasses : o.passes r = true
      · have hkeeps : sweepKeeps o s r = (true, s) := by simp [sweepKeeps, hpasses]
        have hrest := ih s hs
        simp only [Pass.after, Capture.finish, Pass.mk.injEq] at hrest ⊢
        simp only [retain, hkeeps, sweep, if_pos hcount, if_pos hpasses, Pass.keep]
        exact ⟨hrest.1, congrArg _ hrest.2.1, hrest.2.2⟩
      · by_cases hspecial : r.specialWait = true
        · have hkeeps : sweepKeeps o s r = (true, { s with error := some EINVAL }) := by
            simp [sweepKeeps, hs, Nat.not_le.mpr hcount, hpasses, hspecial]
          have hstop := retain_stopped (o := o) (s := { s with error := some EINVAL })
            (.inl (Option.isSome_some)) rows
          simp only [retain, hkeeps, hstop, sweep, if_pos hcount, if_neg hpasses,
            if_pos hspecial, Pass.after, Capture.finish, List.append_nil]
        · have hguard : ¬ (s.error.isSome || o.count ≤ s.count || o.passes r) = true := by
            simp [hs, hcount, hpasses]
          simp only [sweep, if_pos hcount, if_neg hpasses, if_neg hspecial, retain, sweepKeeps,
            if_neg hguard]
          rcases o.attempt r s.world with ⟨_ | e | _, w⟩
          · have hrest := ih { s with dropped := s.dropped ++ [r], world := w } hs
            simpa [Pass.after, Pass.drop] using hrest
          · simp [retain_stopped, Capture.finish, Pass.after]
          · have hrest := ih { s with
              count := s.count + 1, taken := s.taken ++ [r], world := w } hs
            simpa [Pass.after, Pass.take] using hrest
    · rw [retain_stopped (.inr (Nat.not_lt.mp hcount))]
      simp [sweep, if_neg hcount, Capture.finish, Pass.after, hs]

theorem sweepCompact_eq (o : Order W) (table : List Record) (w : W) :
    sweepCompact o table w = sweep o table 0 w :=
  (retain_sweepKeeps o table ⟨none, 0, [], [], w⟩ rfl).trans (by simp [Pass.after])

theorem select_eq (optimized : Bool) (n : Native W) (key : Key) (count : Nat)
    (bitset : BitVec 32) (table : List Record) (w : W) :
    select optimized n key count bitset table w =
      sweep (selectOrder n key count bitset) table 0 w := by
  unfold select
  split
  · next hcount =>
    subst hcount
    cases table <;> simp [sweep, selectOrder]
  · split
    · exact sweepCompact_eq _ _ _
    · rfl

theorem transfer_eq (t : Transaction) (optimized : Bool) (n : Native W) (source target : Key)
    (count : Nat) (w : W) :
    t.transfer optimized n source target count w = t.transfer false n source target count w := by
  cases optimized with
  | false => rfl
  | true =>
    simp only [Transaction.transfer, sweepCompact_eq, if_true, Bool.false_eq_true, if_false,
      Prod.mk.injEq, Transaction.mk.injEq, and_true, true_and]
    cases t.dirty <;> cases (sweep (transferOrder n source count) t.records 0 w).dropped <;>
      simp

theorem Transaction.wake_eq (t : Transaction) (optimized : Bool) (n : Native W) (key : Key)
    (count : Nat) (bitset : BitVec 32) (w : W) :
    t.wake optimized n key count bitset w = t.wake false n key count bitset w := by
  simp only [Transaction.wake, select_eq]

/-! ## Early returns -/

variable {table : List Record}

theorem sweep_passes (h : ∀ r ∈ table, o.passes r = true) (taken : Nat) (w : W) :
    sweep o table taken w = ⟨.ok taken, table, [], [], w⟩ := by
  induction table with
  | nil => rfl
  | cons r rows ih =>
    rw [sweep, if_pos (h r List.mem_cons_self), ih fun x hx => h x (List.mem_cons_of_mem _ hx)]
    simp [Pass.keep]

theorem sweep_special (h : ∀ r ∈ table, o.passes r = true ∨ r.specialWait = true)
    (hsome : ∃ r ∈ table, o.passes r = false) {taken : Nat} (hcount : taken < o.count) (w : W) :
    sweep o table taken w = ⟨.error EINVAL, table, [], [], w⟩ := by
  induction table with
  | nil =>
    obtain ⟨r, hr, -⟩ := hsome
    cases hr
  | cons r rows ih =>
    rw [sweep, if_pos hcount]
    by_cases hpasses : o.passes r = true
    · rw [if_pos hpasses, ih (fun x hx => h x (List.mem_cons_of_mem _ hx))]
      · rfl
      · obtain ⟨x, hx, hfails⟩ := hsome
        rcases List.mem_cons.mp hx with rfl | hx
        · rw [hpasses] at hfails
          cases hfails
        · exact ⟨x, hx, hfails⟩
    · have hspecial := (h r List.mem_cons_self).resolve_left hpasses
      rw [if_neg hpasses, if_pos hspecial]

/-- Where the early return of `wake` answers for the plain path. -/
theorem wake_agrees_iff (n : Native W) (key : Key) (count : Nat) (bitset : BitVec 32)
    (table : List Record) (w : W) :
    wake true n key count bitset table w = wake false n key count bitset table w ↔
      count = 0 ∨ (∃ r ∈ table, r.key = key ∧ r.bitset &&& bitset ≠ 0) ∨
        ∀ r ∈ table, r.key = key → r.metadata = false → r.specialWait = false := by
  have hplain : wake false n key count bitset table w =
      let p := sweep (selectOrder n key count bitset) table 0 w
      ⟨p.result, p.table, p.taken, [], p.dropped, p.world⟩ := by
    simp only [wake, select_eq, Bool.false_and, Bool.false_eq_true, if_false]
  by_cases hmatch : ∃ r ∈ table, r.key = key ∧ r.bitset &&& bitset ≠ 0
  · refine iff_of_true ?_ (.inr (.inl hmatch))
    have hany : table.any (fun r => r.key == key && r.bitset &&& bitset != 0) = true := by
      simpa using hmatch
    rw [hplain]
    simp only [wake, hany, select_eq, Bool.not_true, Bool.and_false, Bool.false_eq_true, if_false]
  have hnone : table.any (fun r => r.key == key && r.bitset &&& bitset != 0) = false := by
    simpa using hmatch
  have hearly : wake true n key count bitset table w = .idle table w := by
    simp only [wake, hnone, Bool.not_false, Bool.and_true, if_true]
  -- No row of the key matches, so only a special one stops the plain path.
  have hrow : ∀ r ∈ table, r.passes key bitset = true ∨ r.specialWait = true := by
    intro r hr
    by_cases hkey : r.key = key
    · have hbits : r.bitset &&& bitset = 0 := by
        by_contra hbits
        exact hmatch ⟨r, hr, hkey, hbits⟩
      cases hspecial : r.specialWait with
      | false => exact .inl (by simp [Record.passes, hspecial, hbits])
      | true => exact .inr rfl
    · exact .inl (by simp [Record.passes, hkey])
  rw [hplain, hearly]
  by_cases hpasses : ∀ r ∈ table, r.passes key bitset = true
  · refine iff_of_true ?_ (.inr (.inr fun r hr hkey hmetadata => ?_))
    · simp only [sweep_passes (o := selectOrder n key count bitset) hpasses, Section.idle]
    · have hpass := hpasses r hr
      simp [Record.passes, hkey, hmetadata] at hpass
      exact hpass.1
  obtain ⟨r, hr, hfails⟩ : ∃ r ∈ table, r.passes key bitset = false := by
    simpa using hpasses
  have hspecial := (hrow r hr).resolve_left (by simp [hfails])
  have hof := hfails
  simp only [Record.passes, Bool.or_eq_false_iff, bne_eq_false_iff_eq] at hof
  by_cases hcount : count = 0
  · refine iff_of_true ?_ (.inl hcount)
    have hidle : sweep (selectOrder n key count bitset) table 0 w = ⟨.ok 0, table, [], [], w⟩ := by
      rw [← select_eq false, select, if_pos hcount]
    simp only [hidle, Section.idle]
  rw [sweep_special (o := selectOrder n key count bitset) hrow
    ⟨r, hr, hfails⟩ (Nat.pos_of_ne_zero hcount)]
  refine iff_of_false (by simp [Section.idle]) ?_
  rintro (hzero | hsome | hall)
  · exact hcount hzero
  · exact hmatch hsome
  · rw [hall r hr hof.1.2 hof.1.1] at hspecial
    cases hspecial

theorem requeue_agrees (n : Native W) (key destination : Key) (count moveCount : Nat)
    (comparison : Option (BitVec 32 × BitVec 32)) (table : List Record) (w : W) :
    requeue true n key destination count moveCount comparison table w =
      requeue false n key destination count moveCount comparison table w := by
  simp only [requeue]
  split
  · rfl
  · cases hany : table.any fun r => r.key == key && !r.metadata with
    | true =>
      simp only [Bool.not_true, Bool.and_false, Bool.false_eq_true, if_false,
        Transaction.wake_eq _ true]
      split
      · rfl
      · simp only [transfer_eq _ true]
    | false =>
      have hrow : ∀ r ∈ table, r.metadata = true ∨ r.key ≠ key := by
        intro r hr
        have hnot := List.any_eq_false.mp hany r hr
        cases hmetadata : r.metadata with
        | true => exact .inl rfl
        | false => exact .inr (by simpa [hmetadata] using hnot)
      have hselect : ∀ r ∈ table, r.passes key MATCH_ANY = true := by
        intro r hr
        rcases hrow r hr with h | h <;> simp [Record.passes, h]
      have htransfer : ∀ r ∈ table, (r.metadata || r.key != key) = true := by
        intro r hr
        rcases hrow r hr with h | h <;> simp [h]
      have hswept := sweep_passes (o := selectOrder n key count MATCH_ANY) hselect 0 w
      have hmoved := sweep_passes (o := transferOrder n key moveCount) htransfer 0 w
      have hwake : Transaction.wake ⟨table, false⟩ false n key count MATCH_ANY w =
          (⟨table, count != 0⟩, ⟨.ok 0, table, [], [], w⟩) := by
        unfold Transaction.wake
        split
        · next hcount => simp [hcount]
        · next hcount => simp [select_eq, hswept, hcount]
      simp [hwake, Transaction.transfer, hmoved, Pass.rejoin, Transaction.commit, Section.idle,
        Except.map]

theorem wakeOp_agrees (n : Native W) (key : Key) (count : Nat) (destination : Key)
    (count2 : Nat) (operation : Except Int Bool) (table : List Record) (w : W) :
    wakeOp true n key count destination count2 operation table w =
      wakeOp false n key count destination count2 operation table w := by
  cases operation with
  | error e => rfl
  | ok second =>
    simp only [wakeOp, select_eq]
    cases hany : table.any fun r => r.key == key || (second && r.key == destination) with
    | true => simp
    | false =>
      have hpasses : ∀ k : Key, (k = key ∨ second = true ∧ k = destination) →
          ∀ r ∈ table, r.passes k MATCH_ANY = true := by
        intro k hk r hr
        have hnot := List.any_eq_false.mp hany r hr
        simp only [Bool.or_eq_true, Bool.and_eq_true, beq_iff_eq, not_or, not_and] at hnot
        rcases hk with rfl | ⟨hsecond, rfl⟩
        · simp [Record.passes, hnot.1]
        · simp [Record.passes, hnot.2 hsecond]
      have hfirst := sweep_passes (o := selectOrder n key count MATCH_ANY)
        (hpasses key (.inl rfl)) 0 w
      cases second with
      | false => simp [hfirst, Section.idle]
      | true =>
        have hlast := sweep_passes (o := selectOrder n destination count2 MATCH_ANY)
          (hpasses destination (.inr ⟨rfl, rfl⟩)) 0 w
        simp [hfirst, hlast, Section.idle, Except.map]

/-- `requeue` and `wakeOp` do the same on both paths.  `wake` does exactly when it is
asked for nothing, or a row of the key matches the bitset, or none is a PI waiter. -/
theorem paths_agree_iff (n : Native W) (table : List Record) (w : W) :
    (∀ (key : Key) (count : Nat) (bitset : BitVec 32),
      wake true n key count bitset table w = wake false n key count bitset table w ↔
        count = 0 ∨ (∃ r ∈ table, r.key = key ∧ r.bitset &&& bitset ≠ 0) ∨
          ∀ r ∈ table, r.key = key → r.metadata = false → r.specialWait = false) ∧
    (∀ (key destination : Key) (count moveCount : Nat)
        (comparison : Option (BitVec 32 × BitVec 32)),
      requeue true n key destination count moveCount comparison table w =
        requeue false n key destination count moveCount comparison table w) ∧
    ∀ (key : Key) (count : Nat) (destination : Key) (count2 : Nat) (operation : Except Int Bool),
      wakeOp true n key count destination count2 operation table w =
        wakeOp false n key count destination count2 operation table w :=
  ⟨fun key count bitset => wake_agrees_iff n key count bitset table w,
    fun key destination count moveCount comparison =>
      requeue_agrees n key destination count moveCount comparison table w,
    fun key count destination count2 operation =>
      wakeOp_agrees n key count destination count2 operation table w⟩

/-! ## A PI waiter -/

/-- A host on which every thread lives and every call succeeds. -/
def calmHost : Native Unit where
  dead _ w := (false, w)
  openEvent _ w := (.ok ⟨⟩, w)
  setEvent _ w := (.ok ⟨⟩, w)

/-- Thread 4 owns a PI futex. -/
def piOwner : Record where
  key := Vector.replicate 5 0
  token := 0
  born := 6
  host := 3
  thread := 9
  bitset := 4
  reserved := STATE

/-- Thread 2 waits for it. -/
def piWaiter : Record where
  key := Vector.replicate 5 0
  token := 1
  born := 7
  host := 4
  thread := 5
  bitset := 2
  reserved := PRIVATE_PARK ||| WAIT

/-- A wake of the PI futex with bitset 1: refused by the plain path, not by the other. -/
theorem pi_wake_differs :
    (wake false calmHost piWaiter.key 1 1 [piOwner, piWaiter] ()).result = .error EINVAL ∧
      (wake true calmHost piWaiter.key 1 1 [piOwner, piWaiter] ()).result = .ok 0 := by
  decide

end Kinakaze.Futex
