import Mathlib.Algebra.Ring.Nat
import Mathlib.Algebra.Ring.Int.Defs
import Kinakaze.RecordLock.Table

/-!
# Exclusion and wakeups

Two facts about every run of transactions and notifications, in any order: no
two records of different owners conflict, and a waiter that nothing blocks any
more has been signalled since it was published, or a transaction that has
released the mutex is about to signal it.
-/

namespace Kinakaze.RecordLock

open Library State

/-! ## Conflicts are about bytes -/

/-- Some record is in the way of `wanted`. -/
def Blocked (locks : List Record) (wanted : Record) : Prop :=
  ∃ r ∈ locks, r.conflicts wanted

/-- The owner holds a byte of `wanted` in a kind that excludes it. -/
def BlockedBy (locks : List Record) (wanted : Record) (owner : Owner) : Prop :=
  owner ≠ wanted.owner ∧ ∃ byte kind, Holds locks wanted.inode owner byte kind ∧
    wanted.range.covers byte ∧ (kind = .write ∨ wanted.kind = .write)

variable {locks : List Record}

theorem exists_conflict_iff {wanted : Record} {owner : Owner} :
    (∃ r ∈ locks, r.conflicts wanted ∧ r.owner = owner) ↔ BlockedBy locks wanted owner := by
  constructor
  · rintro ⟨r, hmem, ⟨hinode, howner, hoverlaps, hkind⟩, rfl⟩
    refine ⟨howner, max r.range.start wanted.range.start, r.kind, ⟨r, hmem, hinode, rfl, ?_, rfl⟩,
      ?_, hkind⟩
    · exact ⟨Nat.le_max_left _ _, Nat.max_le.mpr ⟨r.range.ordered, hoverlaps.2⟩⟩
    · exact ⟨Nat.le_max_right _ _, Nat.max_le.mpr ⟨hoverlaps.1, wanted.range.ordered⟩⟩
  · rintro ⟨hne, byte, kind, ⟨r, hmem, hinode, rfl, hcovers, rfl⟩, hcovers', hkind⟩
    exact ⟨r, hmem, ⟨hinode, hne, ⟨Nat.le_trans hcovers.1 hcovers'.2,
      Nat.le_trans hcovers'.1 hcovers.2⟩, hkind⟩, rfl⟩

/-- No two records of different owners conflict. -/
def Exclusive (locks : List Record) : Prop :=
  ∀ a ∈ locks, ∀ b ∈ locks, ¬ a.conflicts b

theorem Exclusive.sublist {locks' : List Record} (h : Exclusive locks)
    (hsub : ∀ r ∈ locks', r ∈ locks) : Exclusive locks' :=
  fun a ha b hb => h a (hsub a ha) b (hsub b hb)

theorem exclusive_merged (hcanonical : Canonical locks) (h : Exclusive locks) {wanted : Record}
    {unlock : Bool} (hfree : unlock = false → ¬ Blocked locks wanted) :
    Exclusive (merged locks wanted unlock) := by
  intro a ha b hb hconflict
  obtain ⟨hinode, howner, hoverlaps, hkind⟩ := hconflict
  have hcover : a.range.covers (max a.range.start b.range.start) :=
    ⟨Nat.le_max_left _ _, Nat.max_le.mpr ⟨a.range.ordered, hoverlaps.2⟩⟩
  have hcover' : b.range.covers (max a.range.start b.range.start) :=
    ⟨Nat.le_max_right _ _, Nat.max_le.mpr ⟨hoverlaps.1, b.range.ordered⟩⟩
  generalize max a.range.start b.range.start = byte at hcover hcover'
  have hheld := (holds_merged hcanonical).mp ⟨a, ha, rfl, rfl, hcover, rfl⟩
  have hheld' := (holds_merged hcanonical).mp ⟨b, hb, rfl, rfl, hcover', rfl⟩
  rcases hheld with ⟨⟨r, hr, hrinode, hrowner, hrcovers, hrkind⟩, -⟩ |
    ⟨hlock, hwinode, hwowner, hwcovers, hwkind⟩
  · rcases hheld' with ⟨⟨r', hr', hrinode', hrowner', hrcovers', hrkind'⟩, -⟩ |
      ⟨hlock, hwinode, hwowner, hwcovers, hwkind⟩
    · -- Both bytes were held before.
      apply h r hr r' hr'
      refine ⟨by rw [hrinode, hrinode', hinode], by rw [hrowner, hrowner']; exact howner,
        ⟨Nat.le_trans hrcovers.1 hrcovers'.2, Nat.le_trans hrcovers'.1 hrcovers.2⟩, ?_⟩
      rwa [hrkind, hrkind']
    · -- The second byte is new.
      apply hfree hlock
      refine ⟨r, hr, by rw [hrinode, hwinode, hinode], by rw [hrowner, hwowner]; exact howner,
        ⟨Nat.le_trans hrcovers.1 hwcovers.2, Nat.le_trans hwcovers.1 hrcovers.2⟩, ?_⟩
      rwa [hrkind, hwkind]
  · rcases hheld' with ⟨⟨r', hr', hrinode', hrowner', hrcovers', hrkind'⟩, -⟩ | ⟨-, -, hwowner', -⟩
    · -- The first byte is new.
      apply hfree hlock
      refine ⟨r', hr', by rw [hrinode', hwinode, hinode],
        by rw [hrowner', hwowner]; exact fun heq => howner heq.symm,
        ⟨Nat.le_trans hrcovers'.1 hwcovers.2, Nat.le_trans hwcovers.1 hrcovers'.2⟩, ?_⟩
      rw [hrkind', hwkind]
      exact hkind.symm
    · exact howner (hwowner.symm.trans hwowner')

theorem not_blocked {s : State} {call : Call} (h : s.blocker call = none)
    (hlock : call.kind.isNone = false) : ¬ Blocked s.locks call.wanted := by
  rintro ⟨r, hmem, hconflicts⟩
  have hkind : call.kind.isSome := by
    rw [← Option.not_isNone, hlock]
    rfl
  exact blocker_eq_none.mp h hkind r hmem hconflicts

theorem exclusive_after {s : State} (hcanonical : Canonical s.locks) (h : Exclusive s.locks)
    (request : Request) : Exclusive (request.after s).locks := by
  cases request with
  | set call valid event =>
    have houtcome := setOwned_outcome call valid event s
    change Exclusive (setOwned call valid event s).2.locks
    generalize setOwned call valid event s = outcome at houtcome ⊢
    obtain ⟨result, s'⟩ := outcome
    cases houtcome with
    | invalid | again | deadlock | eventless | stillBlocked | crowded | blocked | full => exact h
    | done _ hfree _ hlocks =>
      dsimp only
      rw [hlocks]
      exact exclusive_merged hcanonical h (not_blocked hfree)
  | withdraw | query => exact h
  | release owner inodes => exact h.sublist fun r hr => List.mem_of_mem_filter hr

/-! ## Wakeups -/

/-- A transaction that has released the mutex is about to signal the thread. -/
def AboutToSignal (sys : System) (thread : Thread) : Prop :=
  ∃ batch ∈ sys.notifying, ∃ w ∈ batch, w.thread = thread

/-- No wakeup is lost. -/
def Woken (sys : System) : Prop :=
  ∀ w ∈ sys.bank.waiters, ¬ Blocked sys.bank.locks w.wanted →
    w.thread ∈ sys.signalled ∨ AboutToSignal sys w.thread

theorem mem_eraseIdx_or {α : Type} {l : List α} {index : Nat} {a b : α}
    (h : l[index]? = some b) (ha : a ∈ l) : a = b ∨ a ∈ l.eraseIdx index := by
  induction l generalizing index with
  | nil => simp at ha
  | cons first rest ih =>
    cases index with
    | zero =>
      simp only [List.getElem?_cons_zero, Option.some.injEq] at h
      subst h
      simpa using ha
    | succ index =>
      rw [List.getElem?_cons_succ] at h
      rcases List.mem_cons.mp ha with rfl | ha
      · simp
      · rcases ih h ha with heq | hmem
        · exact Or.inl heq
        · exact Or.inr (by simp [hmem])

variable {sys : System}

theorem transact_woken (hfits : Fits sys.bank.locks sys.bank.waiters) (h : Woken sys)
    (native : Native) (request : Request) : Woken (sys.step (.transact native request)) := by
  intro w hw hfree
  have hproper := request.after_spec
  simp only [System.step, Request.run_spec hfits, AboutToSignal] at hw hfree ⊢
  cases hwake : (request.after (entered native sys.bank)).wake with
  | true =>
    right
    rw [if_pos rfl]
    exact ⟨_, by simp, w, hw, rfl⟩
  | false =>
    obtain ⟨hquiet, hlocks⟩ := hproper.quiet _ hwake
    rw [if_neg (by simp)]
    rcases hproper.published _ w hw with hold | ⟨r, hr, hconflicts⟩
    · have hbank : w ∈ sys.bank.waiters := List.mem_of_mem_filter hold
      have hfree' : ¬ Blocked sys.bank.locks w.wanted := by
        rwa [← entered_quiet hquiet, ← hlocks]
      rcases h w hbank hfree' with hsignalled | ⟨batch, hbatch, hin⟩
      · left
        apply List.mem_filter.mpr
        refine ⟨hsignalled, ?_⟩
        rw [List.any_eq_true]
        exact ⟨w, hold, by simp⟩
      · right
        exact ⟨batch, by simp [hbatch], hin⟩
    · exact absurd ⟨r, hr, hconflicts⟩ hfree

theorem notify_woken (h : Woken sys) (index : Nat) : Woken (sys.step (.notify index)) := by
  intro w hw hfree
  simp only [System.step] at hw hfree ⊢
  cases hbatch : sys.notifying[index]? with
  | none =>
    simp only [hbatch] at hw hfree ⊢
    exact h w hw hfree
  | some sent =>
    simp only [hbatch] at hw hfree ⊢
    rcases h w hw hfree with hsignalled | ⟨batch, hmem, other, hother, hthread⟩
    · exact Or.inl (List.mem_append_left _ hsignalled)
    rcases mem_eraseIdx_or hbatch hmem with rfl | hrest
    · left
      apply List.mem_append_right
      exact List.mem_map.mpr ⟨other, hother, hthread⟩
    · exact Or.inr ⟨batch, hrest, other, hother, hthread⟩

/-- What every step of the system keeps. -/
structure Sound (sys : System) : Prop where
  fits : Fits sys.bank.locks sys.bank.waiters
  canonical : Canonical sys.bank.locks
  exclusive : Exclusive sys.bank.locks
  woken : Woken sys

theorem initial_sound : Sound System.initial where
  fits := initial_fits
  canonical := canonical_nil
  exclusive := by
    intro a ha
    simp [System.initial] at ha
  woken := by
    intro w hw
    simp [System.initial] at hw

theorem step_sound (sys : System) (event : Event) (h : Sound sys) : Sound (sys.step event) := by
  cases event with
  | transact native request =>
    have hcanonical := entered_canonical h.canonical native
    have hexclusive : Exclusive (entered native sys.bank).locks :=
      h.exclusive.sublist fun r hr => List.mem_of_mem_filter hr
    refine ⟨step_fits sys _ h.fits, ?_, ?_, transact_woken h.fits h.woken native request⟩
    · simp only [System.step, Request.run_spec h.fits]
      exact (request.after_refines hcanonical).1
    · simp only [System.step, Request.run_spec h.fits]
      exact exclusive_after hcanonical hexclusive request
  | notify index =>
    have hbank : (sys.step (.notify index)).bank = sys.bank := by
      simp only [System.step]
      split <;> rfl
    refine ⟨?_, ?_, ?_, notify_woken h.woken index⟩
    · rw [hbank]
      exact h.fits
    · rw [hbank]
      exact h.canonical
    · rw [hbank]
      exact h.exclusive

theorem reachable_sound (h : Reachable System.step (· = System.initial) sys) : Sound sys :=
  Reachable.invariant System.step (P := Sound) (by rintro _ rfl; exact initial_sound) step_sound h

/-- In every reachable state no two records of different owners conflict, and a
published waiter that no record is in the way of has been signalled since it was
published, or a transaction that has released the mutex is about to signal it. -/
theorem waiters_woken {sys : System} (h : Reachable System.step (· = System.initial) sys) :
    (∀ a ∈ sys.bank.locks, ∀ b ∈ sys.bank.locks, ¬ a.conflicts b) ∧
    (∀ w ∈ sys.bank.waiters, (∀ r ∈ sys.bank.locks, ¬ r.conflicts w.wanted) →
      w.thread ∈ sys.signalled ∨ AboutToSignal sys w.thread) ∧
    (sys.notifying = [] → ∀ w ∈ sys.bank.waiters,
      (∀ r ∈ sys.bank.locks, ¬ r.conflicts w.wanted) → w.thread ∈ sys.signalled) := by
  have hsound := reachable_sound h
  have hwoken : ∀ w ∈ sys.bank.waiters, (∀ r ∈ sys.bank.locks, ¬ r.conflicts w.wanted) →
      w.thread ∈ sys.signalled ∨ AboutToSignal sys w.thread := by
    intro w hw hfree
    apply hsound.woken w hw
    rintro ⟨r, hr, hconflicts⟩
    exact hfree r hr hconflicts
  refine ⟨hsound.exclusive, hwoken, fun hquiet w hw hfree => ?_⟩
  rcases hwoken w hw hfree with hsignalled | ⟨batch, hbatch, -⟩
  · exact hsignalled
  · rw [hquiet] at hbatch
    simp at hbatch

theorem handover_ordered : 0 ≤ 9 := Nat.zero_le 9

theorem handover_bounded : 9 ≤ OFF_MAX := by decide

/-- Two processes want one file: the second waits for the first, which then
closes the file. -/
def handover : List Event :=
  let native : Native := ⟨fun _ => true, fun owner => some owner.pid, fun _ => true⟩
  let call (pid : Nat) : Call :=
    ⟨⟨0, 0, 7⟩, ⟨pid, 1, 0⟩, none, ⟨0, 9, handover_ordered, handover_bounded⟩, some .write, true, ⟨pid, 1⟩⟩
  [.transact native (.set (call 2) true none), .transact native (.set (call 3) true none),
    .transact native (.release ⟨2, 1, 0⟩ [⟨0, 0, 7⟩]), .notify 0, .notify 0]

/-- Nothing blocks the second process's waiter any more, and it has been signalled. -/
theorem waiters_woken_handover : ⟨3, 1⟩ ∈ (run System.step System.initial handover).signalled := by
  have hstart : Reachable System.step (· = System.initial) System.initial := .start rfl
  have hreach := hstart.run System.step handover
  exact (waiters_woken hreach).2.2 (by decide) ⟨⟨⟨0, 0, 7⟩, ⟨3, 1, 0⟩,
    ⟨0, 9, by decide, by decide⟩, .write⟩, ⟨3, 1, 0⟩, ⟨3, 1⟩⟩ (by decide)
    (by decide)

end Kinakaze.RecordLock
