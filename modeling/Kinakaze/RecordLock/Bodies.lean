import Kinakaze.RecordLock.Transaction

/-!
# What a transaction leaves behind

Each body keeps the table within its capacity, marks the state dirty when it
changes anything and to be woken when it changes a lock, and publishes only
waiters that are blocked.
-/

namespace Kinakaze.RecordLock

open Library

variable {T : Type}

/-- The numbers of locks and waiters the section has room for. -/
structure Fits (locks : List Record) (waiters : List Waiter) : Prop where
  locks : locks.length ≤ LOCK_CAPACITY
  waiters : waiters.length ≤ WAITER_CAPACITY

/-- The state a body starts from. -/
def entered (native : Native) (bank : Bank) : State :=
  State.reap ⟨bank.locks, bank.waiters, false, false⟩ native

/-- What a body guarantees. -/
structure Body.Proper (body : Body T) : Prop where
  fits : ∀ s, Fits s.locks s.waiters → Fits (body s).2.locks (body s).2.waiters
  clean : ∀ s, (body s).2.dirty = false →
    s.dirty = false ∧ (body s).2.locks = s.locks ∧ (body s).2.waiters = s.waiters
  quiet : ∀ s, (body s).2.wake = false → s.wake = false ∧ (body s).2.locks = s.locks
  published : ∀ s, ∀ w ∈ (body s).2.waiters,
    w ∈ s.waiters ∨ ∃ r ∈ (body s).2.locks, r.conflicts w.wanted

/-! ## Entering a transaction -/

theorem filter_eq_self_of_length {α : Type} {p : α → Bool} {l : List α}
    (h : l.length = (l.filter p).length) : l.filter p = l :=
  List.filter_eq_self.mpr (List.length_filter_eq_length_iff.mp h.symm)

variable {native : Native} {bank : Bank}

theorem entered_fits (h : Fits bank.locks bank.waiters) :
    Fits (entered native bank).locks (entered native bank).waiters where
  locks := Nat.le_trans (List.length_filter_le _ _) h.locks
  waiters := Nat.le_trans (List.length_filter_le _ _) h.waiters

theorem entered_clean (h : (entered native bank).dirty = false) :
    (entered native bank).locks = bank.locks ∧ (entered native bank).waiters = bank.waiters := by
  simp only [entered, State.reap, Bool.false_or, Bool.or_eq_false_iff, decide_eq_false_iff_not,
    not_not] at h ⊢
  exact ⟨filter_eq_self_of_length h.1, filter_eq_self_of_length h.2⟩

theorem entered_quiet (h : (entered native bank).wake = false) :
    (entered native bank).locks = bank.locks := by
  simp only [entered, State.reap, Bool.false_or, decide_eq_false_iff_not, not_not] at h ⊢
  exact filter_eq_self_of_length h

theorem transaction_spec {body : Body T} (hbody : body.Proper)
    (hfits : Fits bank.locks bank.waiters) :
    transaction native body bank = ((body (entered native bank)).1,
        ⟨(body (entered native bank)).2.locks, (body (entered native bank)).2.waiters⟩,
        if (body (entered native bank)).2.wake then some (body (entered native bank)).2.waiters
        else none) := by
  have hload : State.load bank = .ok ⟨bank.locks, bank.waiters, false, false⟩ := by
    rw [State.load, if_neg]
    have hlocks := hfits.locks
    have hwaiters := hfits.waiters
    omega
  have hroom : Fits (body (entered native bank)).2.locks (body (entered native bank)).2.waiters :=
    hbody.fits _ (entered_fits hfits)
  have hcommit : (body (entered native bank)).2.commit =
      .ok ⟨(body (entered native bank)).2.locks, (body (entered native bank)).2.waiters⟩ := by
    rw [State.commit, if_neg]
    have hlocks := hroom.locks
    have hwaiters := hroom.waiters
    omega
  have hentered : State.reap ⟨bank.locks, bank.waiters, false, false⟩ native =
      entered native bank := rfl
  simp only [transaction, hload, hentered]
  cases hdirty : (body (entered native bank)).2.dirty with
  | true =>
    rw [if_pos rfl]
    simp only [hcommit]
  | false =>
    obtain ⟨hentered, hlocks, hwaiters⟩ := hbody.clean _ hdirty
    obtain ⟨hlocks', hwaiters'⟩ := entered_clean hentered
    rw [if_neg (by simp), hlocks.trans hlocks', hwaiters.trans hwaiters']

/-! ## The operations -/

/-- `replace` refuses and leaves everything, or sets the new table. -/
theorem replace_cases (s : State) (wanted : Record) (unlock : Bool) :
    (LOCK_CAPACITY < (State.merged s.locks wanted unlock).length ∧
      s.replace wanted unlock = (.error .ENOLCK, s)) ∨
    ((State.merged s.locks wanted unlock).length ≤ LOCK_CAPACITY ∧
      (s.replace wanted unlock).1 = .ok () ∧
      (s.replace wanted unlock).2.locks = State.merged s.locks wanted unlock ∧
      (s.replace wanted unlock).2.waiters = s.waiters ∧
      (s.replace wanted unlock).2.wake =
        (s.wake || decide (s.locks ≠ State.merged s.locks wanted unlock)) ∧
      (s.replace wanted unlock).2.dirty = (s.dirty || (s.replace wanted unlock).2.wake)) := by
  unfold State.replace
  dsimp only
  split_ifs with hfull
  · exact Or.inl ⟨hfull, rfl⟩
  · exact Or.inr ⟨Nat.le_of_not_lt hfull, rfl, rfl, rfl, rfl, rfl⟩

variable {waiter : Waiter} {s : State}

theorem removeWaiter_clean (h : (s.removeWaiter waiter).dirty = false) :
    s.dirty = false ∧ (s.removeWaiter waiter).waiters = s.waiters := by
  simp only [State.removeWaiter, Bool.or_eq_false_iff, decide_eq_false_iff_not, not_not] at h ⊢
  exact ⟨h.1, filter_eq_self_of_length h.2⟩

theorem mem_removeWaiter {w : Waiter} :
    w ∈ (s.removeWaiter waiter).waiters ↔ w ∈ s.waiters ∧ w.thread ≠ waiter.thread := by
  simp [State.removeWaiter]

theorem removeWaiter_fits (h : Fits s.locks s.waiters) :
    Fits (s.removeWaiter waiter).locks (s.removeWaiter waiter).waiters where
  locks := h.locks
  waiters := Nat.le_trans (List.length_filter_le _ _) h.waiters

theorem blocker_conflicts {call : Call} {blocker : Record} (h : s.blocker call = some blocker) :
    blocker ∈ s.locks ∧ blocker.conflicts call.wanted := by
  unfold State.blocker at h
  split_ifs at h
  exact ⟨List.mem_of_find?_eq_some h, by simpa using List.find?_some h⟩

theorem blocker_eq_none {call : Call} :
    s.blocker call = none ↔ call.kind.isSome → ∀ r ∈ s.locks, ¬ r.conflicts call.wanted := by
  unfold State.blocker State.conflict
  split_ifs with hkind <;> simp [hkind]

/-! ## The bodies -/

theorem withdraw_proper (waiter : Waiter) : (withdraw waiter).Proper where
  fits _ h := removeWaiter_fits h
  clean _ h := ⟨(removeWaiter_clean h).1, rfl, (removeWaiter_clean h).2⟩
  quiet _ h := ⟨h, rfl⟩
  published _ _ hw := Or.inl (mem_removeWaiter.mp hw).1

theorem queryOwned_proper (wanted : Record) (valid : Bool) : (queryOwned wanted valid).Proper := by
  have hsame : ∀ s, (queryOwned wanted valid s).2 = s := by
    intro s
    unfold queryOwned
    split_ifs <;> rfl
  constructor
  · intro s h
    rwa [hsame s]
  · intro s h
    rw [hsame s] at h ⊢
    exact ⟨h, rfl, rfl⟩
  · intro s h
    rw [hsame s] at h ⊢
    exact ⟨h, rfl⟩
  · intro s w hw
    rw [hsame s] at hw
    exact Or.inl hw

theorem releaseInodes_proper (owner : Owner) (inodes : List Inode) :
    (releaseInodes owner inodes).Proper where
  fits _ h := ⟨Nat.le_trans (List.length_filter_le _ _) h.locks, h.waiters⟩
  clean s h := by
    simp only [releaseInodes, Bool.or_eq_false_iff, decide_eq_false_iff_not, not_not] at h ⊢
    exact ⟨h.1, filter_eq_self_of_length h.2, trivial⟩
  quiet s h := by
    simp only [releaseInodes, Bool.or_eq_false_iff, decide_eq_false_iff_not, not_not] at h ⊢
    exact ⟨h.1, filter_eq_self_of_length h.2⟩
  published _ _ hw := Or.inl hw

/-- The ways `set_owned`'s transaction can end. -/
inductive SetOutcome (call : Call) (event : Option Nat) (s : State) :
    Except Errno (Option Owner) → State → Prop
  | invalid : SetOutcome call event s (.error .EBADF) (s.removeWaiter call.waiter)
  | again (blocker : Record) : s.blocker call = some blocker → call.wait = false →
      SetOutcome call event s (.error .EAGAIN) s
  | deadlock (blocker : Record) : s.blocker call = some blocker → call.wait = true →
      call.ofd = false → s.wouldDeadlock call.wanted = true →
      SetOutcome call event s (.error .EDEADLK) (s.removeWaiter call.waiter)
  | eventless (blocker : Record) (error : Nat) : s.blocker call = some blocker →
      call.wait = true → event = some error → SetOutcome call event s (.error (.win32 error)) s
  | stillBlocked (blocker : Record) : s.blocker call = some blocker → call.wait = true →
      (∃ w ∈ s.waiters, w.thread = call.thread) →
      SetOutcome call event s (.ok (some blocker.owner)) s
  | crowded (blocker : Record) : s.blocker call = some blocker → call.wait = true →
      (∀ w ∈ s.waiters, w.thread ≠ call.thread) → SetOutcome call event s (.error .ENOLCK) s
  | blocked (blocker : Record) : s.blocker call = some blocker → call.wait = true →
      (call.ofd = false → s.wouldDeadlock call.wanted = false) →
      (∀ w ∈ s.waiters, w.thread ≠ call.thread) → s.waiters.length ≠ WAITER_CAPACITY →
      SetOutcome call event s (.ok (some blocker.owner))
        { s with waiters := s.waiters ++ [call.waiter], dirty := true }
  | full : s.blocker call = none → LOCK_CAPACITY <
        (State.merged s.locks call.wanted call.kind.isNone).length →
      SetOutcome call event s (.error .ENOLCK) (s.removeWaiter call.waiter)
  | done (s' : State) : s.blocker call = none →
      (s.removeWaiter call.waiter).replace call.wanted call.kind.isNone = (.ok (), s') →
      s'.locks = State.merged s.locks call.wanted call.kind.isNone →
      s'.waiters = (s.removeWaiter call.waiter).waiters →
      s'.locks.length ≤ LOCK_CAPACITY →
      s'.wake = (s.wake || decide (s.locks ≠ s'.locks)) →
      s'.dirty = ((s.removeWaiter call.waiter).dirty || s'.wake) →
      SetOutcome call event s (.ok none) s'

theorem setOwned_outcome (call : Call) (valid : Bool) (event : Option Nat) (s : State) :
    SetOutcome call event s (setOwned call valid event s).1 (setOwned call valid event s).2 := by
  unfold setOwned
  cases valid with
  | false => exact .invalid
  | true =>
    rw [if_neg (by simp)]
    cases hblocker : s.blocker call with
    | some blocker =>
      cases hwait : call.wait with
      | false => exact .again blocker hblocker hwait
      | true =>
        dsimp only
        rw [if_neg (by simp)]
        by_cases hdeadlock : ¬ call.ofd ∧ s.wouldDeadlock call.wanted
        · rw [if_pos hdeadlock]
          exact .deadlock blocker hblocker hwait (by simpa using hdeadlock.1) hdeadlock.2
        rw [if_neg hdeadlock]
        have hnot : call.ofd = false → s.wouldDeadlock call.wanted = false := by
          intro hofd
          simpa [hofd] using hdeadlock
        cases event with
        | some error => exact .eventless blocker error hblocker hwait rfl
        | none =>
          dsimp only
          split_ifs with hsame hcrowded
          · exact .stillBlocked blocker hblocker hwait (by simpa using hsame)
          · exact .crowded blocker hblocker hwait (by simpa using hsame)
          · exact .blocked blocker hblocker hwait hnot (by simpa using hsame) hcrowded
    | none =>
      dsimp only
      rcases replace_cases (s.removeWaiter call.waiter) call.wanted call.kind.isNone with
        ⟨hfull, hreplace⟩ | ⟨hroom, hok, hlocks, hwaiters, hwake, hdirty⟩
      · rw [hreplace]
        exact .full hblocker hfull
      have hreplace : (s.removeWaiter call.waiter).replace call.wanted call.kind.isNone =
          (.ok (), ((s.removeWaiter call.waiter).replace call.wanted call.kind.isNone).2) :=
        Prod.ext hok rfl
      rw [hreplace]
      exact .done _ hblocker hreplace hlocks hwaiters (by rw [hlocks]; exact hroom)
        (by rw [hwake, hlocks]; rfl) hdirty

section SetOutcome

variable {call : Call} {event : Option Nat} {s s' : State} {result : Except Errno (Option Owner)}
  (h : SetOutcome call event s result s')

include h

theorem SetOutcome.fits (hfits : Fits s.locks s.waiters) : Fits s'.locks s'.waiters := by
  cases h with
  | invalid | deadlock | full => exact removeWaiter_fits hfits
  | again | eventless | stillBlocked | crowded => exact hfits
  | blocked _ _ _ _ _ hroom =>
    refine ⟨hfits.locks, ?_⟩
    have hwaiters := hfits.waiters
    simp only [List.length_append, List.length_singleton]
    omega
  | done _ _ _ hlocks hwaiters hroom =>
    refine ⟨hroom, ?_⟩
    rw [hwaiters]
    exact (removeWaiter_fits hfits).waiters

theorem SetOutcome.clean (hclean : s'.dirty = false) :
    s.dirty = false ∧ s'.locks = s.locks ∧ s'.waiters = s.waiters := by
  cases h with
  | invalid | deadlock | full =>
    exact ⟨(removeWaiter_clean hclean).1, rfl, (removeWaiter_clean hclean).2⟩
  | again | eventless | stillBlocked | crowded => exact ⟨hclean, rfl, rfl⟩
  | blocked => simp at hclean
  | done _ _ _ hlocks hwaiters _ hwake hdirty =>
    rw [hdirty, Bool.or_eq_false_iff] at hclean
    obtain ⟨hremoved, hquiet⟩ := hclean
    rw [hwake, Bool.or_eq_false_iff, decide_eq_false_iff_not, not_not] at hquiet
    exact ⟨(removeWaiter_clean hremoved).1, hquiet.2.symm,
      hwaiters.trans (removeWaiter_clean hremoved).2⟩

theorem SetOutcome.quiet (hquiet : s'.wake = false) : s.wake = false ∧ s'.locks = s.locks := by
  cases h with
  | invalid | deadlock | full | again | eventless | stillBlocked | crowded | blocked =>
    exact ⟨hquiet, rfl⟩
  | done _ _ _ _ _ _ hwake _ =>
    rw [hwake, Bool.or_eq_false_iff, decide_eq_false_iff_not, not_not] at hquiet
    exact ⟨hquiet.1, hquiet.2.symm⟩

theorem SetOutcome.published {w : Waiter} (hw : w ∈ s'.waiters) :
    w ∈ s.waiters ∨ ∃ r ∈ s'.locks, r.conflicts w.wanted := by
  cases h with
  | invalid | deadlock | full => exact Or.inl (mem_removeWaiter.mp hw).1
  | again | eventless | stillBlocked | crowded => exact Or.inl hw
  | blocked blocker hblocker =>
    rcases List.mem_append.mp hw with hold | hnew
    · exact Or.inl hold
    · rw [List.mem_singleton] at hnew
      subst hnew
      exact Or.inr ⟨blocker, blocker_conflicts hblocker⟩
  | done _ _ _ _ hwaiters =>
    rw [hwaiters] at hw
    exact Or.inl (mem_removeWaiter.mp hw).1

end SetOutcome

theorem setOwned_proper (call : Call) (valid : Bool) (event : Option Nat) :
    (setOwned call valid event).Proper where
  fits s := (setOwned_outcome call valid event s).fits
  clean s := (setOwned_outcome call valid event s).clean
  quiet s := (setOwned_outcome call valid event s).quiet
  published s _ := (setOwned_outcome call valid event s).published

/-! ## Requests -/

/-- The state the body of a request leaves. -/
def Request.after (s : State) : Request → State
  | .set call valid event => (setOwned call valid event s).2
  | .withdraw waiter => s.removeWaiter waiter
  | .release owner inodes => (releaseInodes owner inodes s).2
  | .query _ _ => s

theorem Request.run_spec (hfits : Fits bank.locks bank.waiters) (request : Request) :
    request.run native bank = (⟨(request.after (entered native bank)).locks,
        (request.after (entered native bank)).waiters⟩,
        if (request.after (entered native bank)).wake then
          some (request.after (entered native bank)).waiters else none) := by
  cases request with
  | set call valid event =>
    simp only [Request.run, transaction_spec (setOwned_proper call valid event) hfits,
      Request.after]
    rfl
  | withdraw waiter =>
    simp only [Request.run, transaction_spec (withdraw_proper waiter) hfits, Request.after]
    rfl
  | release owner inodes =>
    simp only [Request.run, transaction_spec (releaseInodes_proper owner inodes) hfits,
      Request.after]
    rfl
  | query wanted valid =>
    have hsame : (queryOwned wanted valid (entered native bank)).2 = entered native bank := by
      unfold queryOwned
      split_ifs <;> rfl
    simp only [Request.run, transaction_spec (queryOwned_proper wanted valid) hfits,
      Request.after, hsame]
    rfl

theorem Request.after_spec (request : Request) :
    Body.Proper fun s => ((.ok () : Except Errno Unit), request.after s) := by
  cases request with
  | set call valid event =>
    exact ⟨(setOwned_proper call valid event).fits, (setOwned_proper call valid event).clean,
      (setOwned_proper call valid event).quiet, (setOwned_proper call valid event).published⟩
  | withdraw waiter => exact withdraw_proper waiter
  | release owner inodes => exact releaseInodes_proper owner inodes
  | query wanted valid =>
    exact ⟨fun _ h => h, fun _ h => ⟨h, rfl, rfl⟩, fun _ h => ⟨h, rfl⟩, fun _ _ hw => Or.inl hw⟩

theorem step_fits (sys : System) (event : Event) (h : Fits sys.bank.locks sys.bank.waiters) :
    Fits (sys.step event).bank.locks (sys.step event).bank.waiters := by
  cases event with
  | transact native request =>
    have hafter : Fits (request.after (entered native sys.bank)).locks
        (request.after (entered native sys.bank)).waiters :=
      request.after_spec.fits _ (entered_fits h)
    simpa only [System.step, Request.run_spec h] using hafter
  | notify index =>
    simp only [System.step]
    split <;> exact h

theorem initial_fits : Fits System.initial.bank.locks System.initial.bank.waiters :=
  ⟨Nat.zero_le _, Nat.zero_le _⟩

end Kinakaze.RecordLock
