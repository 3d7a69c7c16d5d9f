import Kinakaze.Library.Cycles
import Kinakaze.RecordLock.Wakeups

/-!
# Deadlock detection

An owner waits for another when a record of the other is in the way of one of
its published waiters.  The search of `would_deadlock` is exact in every state.
The waits are free of cycles as long as an owner with a published waiter takes
no lock from another thread; without that a lock taken in passing closes a
cycle that no request is refused for.
-/

namespace Kinakaze.RecordLock

open Library Relation State

/-- A record of `b` is in the way of a waiter of `a`. -/
def WaitsFor (locks : List Record) (waiters : List Waiter) (a b : Owner) : Prop :=
  ∃ w ∈ waiters, w.wanted.owner = a ∧ ∃ r ∈ locks, r.conflicts w.wanted ∧ r.owner = b

instance (locks : List Record) (waiters : List Waiter) (a b : Owner) :
    Decidable (WaitsFor locks waiters a b) :=
  inferInstanceAs (Decidable (∃ _ ∈ _, _))

/-! ## The search -/

variable {s : State} {wanted : Record}

theorem mem_holders {owner : Owner} :
    owner ∈ s.holders wanted ↔ ∃ r ∈ s.locks, r.conflicts wanted ∧ r.owner = owner := by
  simp only [holders, List.mem_map, List.mem_filter, decide_eq_true_eq, and_assoc]

variable {a b : Owner}

theorem mem_waitsOn : b ∈ s.waitsOn a ↔ WaitsFor s.locks s.waiters a b := by
  simp only [waitsOn, WaitsFor, List.mem_flatMap, List.mem_filter, decide_eq_true_eq, mem_holders,
    and_assoc]

/-- A holder of a record in the way of `wanted` waits, directly or through
others, for the owner of `wanted`. -/
def ClosesCycle (s : State) (wanted : Record) : Prop :=
  ∃ holder, (∃ r ∈ s.locks, r.conflicts wanted ∧ r.owner = holder) ∧
    ReflTransGen (WaitsFor s.locks s.waiters) holder wanted.owner

theorem reachedFrom_iff :
    ReachedFrom s.waitsOn (s.holders wanted).reverse wanted.owner ↔ ClosesCycle s wanted := by
  have hgraph : (fun a b => b ∈ s.waitsOn a) = WaitsFor s.locks s.waiters := by
    funext a b
    exact propext mem_waitsOn
  simp only [ReachedFrom, ClosesCycle, List.mem_reverse, mem_holders, hgraph]

theorem deadlockSearch_eq (s : State) (wanted : Record) {fuel : Nat}
    (hfuel : s.deadlockFuel wanted ≤ fuel) :
    s.deadlockSearch wanted fuel = some (s.wouldDeadlock wanted) := by
  obtain ⟨answer, hanswer⟩ := Option.isSome_iff_exists.mp
    (s.deadlockSearch_isSome wanted fuel hfuel)
  obtain ⟨least, hleast⟩ := Option.isSome_iff_exists.mp
    (s.deadlockSearch_isSome wanted _ (Nat.le_refl _))
  have hwould : s.wouldDeadlock wanted = least := by
    simp only [wouldDeadlock, hleast, Option.get_some]
  rw [hanswer, hwould]
  have hsame := (search_eq_true_iff hanswer).trans (search_eq_true_iff hleast).symm
  rw [Bool.eq_iff_iff.mpr hsame]

theorem wouldDeadlock_iff (s : State) (wanted : Record) :
    s.wouldDeadlock wanted = true ↔ ClosesCycle s wanted := by
  rw [← reachedFrom_iff]
  exact search_eq_true_iff (deadlockSearch_eq s wanted (Nat.le_refl _))

/-! ## Changes of the waits -/

variable {locks : List Record} {waiters : List Waiter}

theorem waitsFor_append {waiter : Waiter} : WaitsFor locks (waiters ++ [waiter]) =
      Extended (WaitsFor locks waiters) waiter.wanted.owner fun owner =>
        ∃ r ∈ locks, r.conflicts waiter.wanted ∧ r.owner = owner := by
  funext a b
  simp only [WaitsFor, Extended, List.mem_append, List.mem_singleton, or_and_right, exists_or,
    exists_eq_left]
  rw [@eq_comm _ a waiter.wanted.owner]

theorem closesCycle_iff (h : Acyclic (WaitsFor s.locks s.waiters)) (waiter : Waiter) :
    ClosesCycle s waiter.wanted ↔
      TransGen (WaitsFor s.locks (s.waiters ++ [waiter])) waiter.wanted.owner
        waiter.wanted.owner := by
  rw [waitsFor_append, extended_cycle_iff h]
  rfl

theorem append_acyclic (h : Acyclic (WaitsFor s.locks s.waiters)) {waiter : Waiter}
    (hnone : ¬ ClosesCycle s waiter.wanted) :
    Acyclic (WaitsFor s.locks (s.waiters ++ [waiter])) := by
  rw [waitsFor_append]
  exact h.extend hnone

theorem WaitsFor.mono {locks' : List Record} {waiters' : List Waiter}
    (hlocks : ∀ r ∈ locks', r ∈ locks) (hwaiters : ∀ w ∈ waiters', w ∈ waiters)
    (h : WaitsFor locks' waiters' a b) : WaitsFor locks waiters a b := by
  obtain ⟨w, hw, howner, r, hr, hconflict⟩ := h
  exact ⟨w, hwaiters w hw, howner, r, hlocks r hr, hconflict⟩

theorem waitsFor_merged (hcanonical : Canonical locks) {unlock : Bool}
    (h : WaitsFor (merged locks wanted unlock) waiters a b) :
    WaitsFor locks waiters a b ∨ (unlock = false ∧ b = wanted.owner) := by
  obtain ⟨w, hw, howner, hblocked⟩ := h
  obtain ⟨hne, byte, kind, hholds, hcovers, hkind⟩ := exists_conflict_iff.mp hblocked
  rcases (holds_merged hcanonical).mp hholds with ⟨hold, -⟩ | ⟨hlock, hgives⟩
  · left
    exact ⟨w, hw, howner, exists_conflict_iff.mpr ⟨hne, byte, kind, hold, hcovers, hkind⟩⟩
  · exact Or.inr ⟨hlock, hgives.2.1.symm⟩

/-! ## Runs -/

/-- An owner that takes a lock has no published waiter of another thread, and
no request for an open file description waits. -/
def OneThread (sys : System) : Event → Prop
  | .transact native (.set call _ _) =>
    call.kind.isSome → (call.ofd = true → call.wait = false) ∧
      ∀ w ∈ (entered native sys.bank).waiters, w.wanted.owner = call.owner → w.thread = call.thread
  | _ => True

/-- One body keeps the waits free of cycles. -/
theorem after_acyclic (hcanonical : Canonical s.locks) (h : Acyclic (WaitsFor s.locks s.waiters))
    {request : Request}
    (hone : ∀ call valid event, request = .set call valid event → call.kind.isSome →
      (call.ofd = true → call.wait = false) ∧
      ∀ w ∈ s.waiters, w.wanted.owner = call.owner → w.thread = call.thread) :
    Acyclic (WaitsFor (request.after s).locks (request.after s).waiters) := by
  have hless : ∀ {locks : List Record} {waiters : List Waiter}, (∀ r ∈ locks, r ∈ s.locks) →
      (∀ w ∈ waiters, w ∈ s.waiters) → Acyclic (WaitsFor locks waiters) :=
    fun hlocks hwaiters => h.mono fun _ _ => WaitsFor.mono hlocks hwaiters
  have hremoved : ∀ {waiter w : Waiter}, w ∈ (s.removeWaiter waiter).waiters → w ∈ s.waiters :=
    fun hw => (mem_removeWaiter.mp hw).1
  cases request with
  | set call valid event =>
    have houtcome := setOwned_outcome call valid event s
    have hset := hone call valid event rfl
    change Acyclic (WaitsFor (setOwned call valid event s).2.locks
      (setOwned call valid event s).2.waiters)
    generalize setOwned call valid event s = outcome at houtcome ⊢
    obtain ⟨result, s'⟩ := outcome
    cases houtcome with
    | invalid | deadlock | full => exact hless (fun _ hr => hr) fun _ hw => hremoved hw
    | again | eventless | stillBlocked | crowded => exact h
    | blocked blocker hblocker hwait hsearch _ _ =>
      -- The search found no cycle through the new waiter.
      have hkind : call.kind.isSome := by
        unfold State.blocker at hblocker
        split_ifs at hblocker with hkind
        exact hkind
      have hofd : call.ofd = false := by
        cases hofd : call.ofd with
        | false => rfl
        | true =>
          have hwait' := (hset hkind).1 hofd
          rw [hwait] at hwait'
          cases hwait'
      apply append_acyclic h
      rw [Call.waiter, ← wouldDeadlock_iff, hsearch hofd]
      simp
    | done _ hfree _ hlocks hwaiters =>
      dsimp only
      rw [hlocks, hwaiters]
      cases hunlock : call.kind.isNone with
      | true =>
        apply h.mono
        intro a b hab
        rcases waitsFor_merged hcanonical hab with hold | ⟨hlock, -⟩
        · exact WaitsFor.mono (fun _ hr => hr) (fun _ hw => hremoved hw) hold
        · cases hlock
      | false =>
        -- The owner's only thread gets what it asked for and waits no more.
        have hkind : call.kind.isSome := by
          rw [← Option.not_isNone, hunlock]
          rfl
        apply h.into call.owner
        · intro a b hab
          rcases waitsFor_merged hcanonical hab with hold | ⟨-, heq⟩
          · exact Or.inl (WaitsFor.mono (fun _ hr => hr) (fun _ hw => hremoved hw) hold)
          · exact Or.inr heq
        · rintro b ⟨w, hw, howner, -⟩
          obtain ⟨hmem, hthread⟩ := mem_removeWaiter.mp hw
          exact hthread ((hset hkind).2 w hmem howner)
  | withdraw waiter => exact hless (fun _ hr => hr) fun _ hw => hremoved hw
  | release owner inodes =>
    exact hless (fun _ hr => List.mem_of_mem_filter hr) fun _ hw => hw
  | query wanted valid => exact h

theorem entered_acyclic {bank : Bank} (h : Acyclic (WaitsFor bank.locks bank.waiters))
    (native : Native) :
    Acyclic (WaitsFor (entered native bank).locks (entered native bank).waiters) :=
  h.mono fun _ _ => WaitsFor.mono (fun _ hr => List.mem_of_mem_filter hr)
    fun _ hw => List.mem_of_mem_filter hw

theorem step_acyclic {sys : System} (hsound : Sound sys)
    (h : Acyclic (WaitsFor sys.bank.locks sys.bank.waiters)) {event : Event}
    (hone : OneThread sys event) :
    Acyclic (WaitsFor (sys.step event).bank.locks (sys.step event).bank.waiters) := by
  cases event with
  | transact native request =>
    simp only [System.step, Request.run_spec hsound.fits]
    apply after_acyclic (entered_canonical hsound.canonical native) (entered_acyclic h native)
    rintro call valid error rfl hkind
    exact hone hkind
  | notify index =>
    simp only [System.step]
    split <;> exact h

/-- A request is refused with `EDEADLK` exactly when it would wait and the
search finds a cycle. -/
theorem setOwned_deadlock_iff (call : Call) (valid : Bool) (event : Option Nat) (s : State) :
    (setOwned call valid event s).1 = .error .EDEADLK ↔
      (valid = true ∧ (s.blocker call).isSome ∧ call.wait = true ∧ call.ofd = false) ∧
        ClosesCycle s call.wanted := by
  rw [← wouldDeadlock_iff]
  unfold setOwned
  cases valid with
  | false => simp
  | true =>
    rw [if_neg (by simp)]
    cases hblocker : s.blocker call with
    | some blocker =>
      cases hwait : call.wait with
      | false => simp
      | true =>
        dsimp only
        rw [if_neg (by simp)]
        by_cases hdeadlock : ¬ call.ofd ∧ s.wouldDeadlock call.wanted
        · rw [if_pos hdeadlock]
          simpa using hdeadlock
        rw [if_neg hdeadlock]
        have hnot : ¬ (call.ofd = false ∧ s.wouldDeadlock call.wanted = true) := by
          simpa using hdeadlock
        cases event with
        | some error => simpa using hnot
        | none =>
          dsimp only
          split_ifs <;> simpa using hnot
    | none =>
      dsimp only
      rcases replace_cases (s.removeWaiter call.waiter) call.wanted call.kind.isNone with
        ⟨-, hreplace⟩ | ⟨-, hok, -⟩
      · rw [hreplace]
        simp
      have hreplace : (s.removeWaiter call.waiter).replace call.wanted call.kind.isNone =
          (.ok (), ((s.removeWaiter call.waiter).replace call.wanted call.kind.isNone).2) :=
        Prod.ext hok rfl
      rw [hreplace]
      simp

/-- The waits are free of cycles, and a request that would wait is refused with
`EDEADLK` exactly when its waiter would make a cycle through its owner. -/
def DeadlockExact (sys : System) : Prop :=
  Acyclic (WaitsFor sys.bank.locks sys.bank.waiters) ∧
  ∀ (native : Native) (call : Call) (valid : Bool) (event : Option Nat),
    (transaction native (setOwned call valid event) sys.bank).1 = .error .EDEADLK ↔
      (valid = true ∧ ((entered native sys.bank).blocker call).isSome ∧ call.wait = true ∧
        call.ofd = false) ∧
      TransGen (WaitsFor (entered native sys.bank).locks
          ((entered native sys.bank).waiters ++ [call.waiter]))
        call.owner call.owner

theorem Sound.deadlockExact {sys : System} (hsound : Sound sys)
    (h : Acyclic (WaitsFor sys.bank.locks sys.bank.waiters)) : DeadlockExact sys := by
  refine ⟨h, fun native call valid event => ?_⟩
  rw [transaction_spec (setOwned_proper call valid event) hsound.fits]
  dsimp only
  rw [setOwned_deadlock_iff]
  have hcycle := closesCycle_iff (entered_acyclic h native) call.waiter
  exact and_congr_right fun _ => hcycle

/-- In every run of owners that keep to one thread while they wait, the waits are
free of cycles and deadlock detection is exact; in every state whatever, the
search ends. -/
theorem deadlock_exact (events : List Event)
    (hone : EveryStep System.step OneThread System.initial events) :
    EveryState System.step DeadlockExact System.initial events ∧
    ∀ (s : State) (wanted : Record), ∃ fuel, ∀ more, fuel ≤ more →
      s.deadlockSearch wanted more = some (s.wouldDeadlock wanted) := by
  constructor
  · have hinitial : Acyclic (WaitsFor System.initial.bank.locks System.initial.bank.waiters) := by
      intro a hcycle
      obtain ⟨b, ⟨w, hw, -⟩, -⟩ := TransGen.head'_iff.mp hcycle
      simp [System.initial] at hw
    have hstates : EveryState System.step (fun sys => Sound sys ∧
        Acyclic (WaitsFor sys.bank.locks sys.bank.waiters)) System.initial events :=
      EveryState.of_preserved
        (fun sys event h hok => ⟨step_sound sys event h.1, step_acyclic h.1 h.2 hok⟩)
        ⟨initial_sound, hinitial⟩ hone
    exact hstates.mono fun sys h => h.1.deadlockExact h.2
  · intro s wanted
    exact ⟨s.deadlockFuel wanted, fun _ hmore => deadlockSearch_eq s wanted hmore⟩

/-! ## Two runs -/

/-- A process with one thread asks for the bytes from `start` to `stop`. -/
def ask (pid inode : Nat) (stop : Fin 100) (wait : Bool) (thread : Nat) : Event :=
  .transact ⟨fun _ => true, fun owner => some owner.pid, fun _ => true⟩
    (.set ⟨⟨0, 0, inode⟩, ⟨pid, 1, 0⟩, none,
      ⟨0, stop, Nat.zero_le _, by have := stop.isLt; unfold OFF_MAX; omega⟩, some .write, wait,
      ⟨pid, thread⟩⟩ true none)

/-- Two processes lock a file each and then ask for the other's. -/
def crossing : List Event :=
  [ask 2 10 9 true 1, ask 3 11 9 true 1, ask 2 11 9 true 1, ask 3 10 9 true 1]

instance : ∀ (sys : System) (event : Event), Decidable (OneThread sys event)
  | _, .transact _ (.set _ _ _) => inferInstanceAs (Decidable (_ → _ ∧ _))
  | _, .transact _ (.withdraw _) => .isTrue trivial
  | _, .transact _ (.release _ _) => .isTrue trivial
  | _, .transact _ (.query _ _) => .isTrue trivial
  | _, .notify _ => .isTrue trivial

theorem deadlock_exact_crossing : EveryState System.step DeadlockExact System.initial crossing :=
  (deadlock_exact crossing ⟨by decide, by decide, by decide, by decide, trivial⟩).1

/-- An owner that waits has one waiting thread, and no request for an open file
description waits. -/
def OneWait (sys : System) : Event → Prop
  | .transact native (.set call _ _) =>
    call.wait = true → call.ofd = false ∧ ∀ w ∈ (entered native sys.bank).waiters,
        w.wanted.owner = call.owner → w.thread = call.thread
  | _ => True

instance : ∀ (sys : System) (event : Event), Decidable (OneWait sys event)
  | _, .transact _ (.set _ _ _) => inferInstanceAs (Decidable (_ → _ ∧ _))
  | _, .transact _ (.withdraw _) => .isTrue trivial
  | _, .transact _ (.release _ _) => .isTrue trivial
  | _, .transact _ (.query _ _) => .isTrue trivial
  | _, .notify _ => .isTrue trivial

/-- Process 2 waits for 3, and 3 for 4; then another thread of 2 locks bytes
that 3 waits for. -/
def sideways : List Event :=
  [ask 3 10 9 false 30, ask 4 11 9 false 40, ask 2 10 9 true 20, ask 3 11 19 true 30,
    .transact ⟨fun _ => true, fun owner => some owner.pid, fun _ => true⟩
      (.set ⟨⟨0, 0, 11⟩, ⟨2, 1, 0⟩, none, ⟨10, 19, by decide, by decide⟩, some .write, false,
        ⟨2, 21⟩⟩ true none)]

/-- One waiting thread for each owner is not enough: 2 and 3 wait for each other
and nothing was refused. -/
theorem sideways_deadlocks : EveryStep System.step OneWait System.initial sideways ∧
    ¬ Acyclic (WaitsFor (run System.step System.initial sideways).bank.locks
      (run System.step System.initial sideways).bank.waiters) := by
  constructor
  · exact ⟨by decide, by decide, by decide, by decide, by decide, trivial⟩
  · intro hacyclic
    apply hacyclic ⟨2, 1, 0⟩
    apply TransGen.tail (b := ⟨3, 1, 0⟩)
    · exact .single (by decide)
    · decide

end Kinakaze.RecordLock
