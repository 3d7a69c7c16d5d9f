import Kinakaze.Library.Periods
import Kinakaze.Library.Run
import Kinakaze.Timer.Calls

/-!
# Every expiration is counted once

A timer is refreshed when somebody looks at it.  How often that happens makes no
difference: what `read` returned, what a canceled `read` threw away and what is
pending are together the expirations since the timer was armed.
-/

namespace Kinakaze.Timer

open Library

/-! ### Refreshing -/

/-- What the calls leave in a timer. -/
structure State.Armed (s : State) : Prop where
  deadline_nonneg : 0 ≤ s.deadline
  deadline_le : s.deadline ≤ I64_MAX
  interval_nonneg : 0 ≤ s.interval
  interval_le : s.interval ≤ I64_MAX
  ticks_le : s.ticks ≤ U64_MAX

variable {s s' : State} {now later : Int}

theorem checkedSub_nonneg {a b : Int} (ha : 0 ≤ a) (ha' : a ≤ I64_MAX) (hb : 0 ≤ b)
    (hb' : b ≤ I64_MAX) : checkedSub a b = some (a - b) := by
  refine if_pos ?_
  simp only [I64_MIN, I64_MAX] at *
  omega

/-- The deadline after `now`. -/
def after (deadline interval now : Int) : Int :=
  if deadline = 0 ∨ now < deadline then deadline
  else if interval = 0 then 0
  else min (deadline + elapsed deadline interval now * interval) I64_MAX

/-- The expirations of a timer up to `now`. -/
def expirations (deadline interval now : Int) : Nat :=
  if deadline = 0 then 0 else elapsed deadline interval now

theorem State.Armed.missed (h : s.Armed) (hdue : s.deadline ≤ now) (hnow : now ≤ I64_MAX) :
    s.missed now = some (elapsed s.deadline s.interval now) := by
  unfold State.missed
  by_cases honce : s.interval = 0
  · rw [if_pos honce, honce, elapsed_once hdue]
  · have hnonneg := h.deadline_nonneg
    rw [if_neg honce, checkedSub_nonneg (by omega) hnow hnonneg h.deadline_le, Option.map_some,
      Int.tdiv_eq_ediv_of_nonneg (by omega), elapsed, if_neg (Int.not_lt.mpr hdue), if_neg honce]

variable {deadline interval : Int}

theorem expirations_early (h : deadline = 0 ∨ now < deadline) :
    expirations deadline interval now = 0 := by
  unfold expirations
  split
  · rfl
  · exact elapsed_before (by omega)

theorem refresh_eq (h : s.Armed) (hnow : now ≤ I64_MAX) : refresh s now = some { s with
      ticks := min (s.ticks + expirations s.deadline s.interval now) U64_MAX
      deadline := after s.deadline s.interval now } := by
  unfold refresh
  by_cases hfire : s.deadline ≠ 0 ∧ s.deadline ≤ now
  · have hlate : ¬(s.deadline = 0 ∨ now < s.deadline) := by omega
    rw [if_pos hfire, h.missed hfire.2 hnow, Option.map_some, after, if_neg hlate, expirations,
      if_neg hfire.1]
  · have hearly : s.deadline = 0 ∨ now < s.deadline := by omega
    rw [if_neg hfire, after, if_pos hearly, expirations_early hearly, Nat.add_zero,
      Nat.min_eq_left h.ticks_le]

theorem after_nonneg (h : 0 ≤ deadline) (hinterval : 0 ≤ interval) :
    0 ≤ after deadline interval now := by
  unfold after
  split
  · exact h
  split
  · exact Int.le_refl _
  · have hmul : 0 ≤ (elapsed deadline interval now : Int) * interval :=
      Int.mul_nonneg (Int.natCast_nonneg _) hinterval
    refine Int.le_min.mpr ⟨by omega, by decide⟩

theorem after_le (h : deadline ≤ I64_MAX) : after deadline interval now ≤ I64_MAX := by
  unfold after
  split
  · exact h
  · split
    · decide
    · exact Int.min_le_right _ _

theorem lt_after (hinterval : 0 ≤ interval) (hnow : now < I64_MAX) :
    after deadline interval now = 0 ∨ now < after deadline interval now := by
  unfold after
  split
  · next hearly => exact hearly
  · split
    · exact .inl rfl
    · next honce => exact .inr (Int.lt_min.mpr ⟨lt_next (by omega), hnow⟩)

theorem after_after (hdeadline : 0 ≤ deadline) (hinterval : 0 ≤ interval) (horder : now ≤ later)
    (hlater : later < I64_MAX) :
    after (after deadline interval now) interval later = after deadline interval later ∧
      expirations deadline interval now + expirations (after deadline interval now) interval later =
        expirations deadline interval later := by
  by_cases hzero : deadline = 0
  · simp [hzero, after, expirations]
  by_cases hearly : now < deadline
  · have hsame : after deadline interval now = deadline := if_pos (.inr hearly)
    rw [hsame, expirations, if_neg hzero, elapsed_before hearly]
    exact ⟨rfl, Nat.zero_add _⟩
  have hdue : ¬(deadline = 0 ∨ now < deadline) := by omega
  have hdueLater : ¬(deadline = 0 ∨ later < deadline) := by omega
  by_cases honce : interval = 0
  · have hoff : after deadline interval now = 0 := by rw [after, if_neg hdue, if_pos honce]
    rw [hoff, after, if_pos (.inl rfl), after, if_neg hdueLater, if_pos honce, expirations,
      expirations, expirations, if_neg hzero, if_pos rfl, if_neg hzero, honce,
      elapsed_once (by omega), elapsed_once (by omega)]
    exact ⟨rfl, rfl⟩
  -- The next deadline, before it is cut off at `i64::MAX`.
  have hpos : 0 < interval := by omega
  have hnext : elapsed deadline interval now +
      elapsed (deadline + elapsed deadline interval now * interval) interval later =
      elapsed deadline interval later := elapsed_next hpos horder
  have hmul : 0 ≤ (elapsed deadline interval now : Int) * interval :=
    Int.mul_nonneg (Int.natCast_nonneg _) hinterval
  generalize hn : deadline + (elapsed deadline interval now : Int) * interval = next at hnext
  have hafter : after deadline interval now = min next I64_MAX := by
    rw [after, if_neg hdue, if_neg honce, hn]
  have hafterLater : after deadline interval later =
      min (deadline + elapsed deadline interval later * interval) I64_MAX := by
    rw [after, if_neg hdueLater, if_neg honce]
  have hmax : 0 < I64_MAX := by decide
  by_cases hfire : later < next
  · have hwait : later < min next I64_MAX := Int.lt_min.mpr ⟨hfire, hlater⟩
    have hnone : elapsed deadline interval later = elapsed deadline interval now := by
      rw [← hnext, elapsed_before hfire, Nat.add_zero]
    rw [hafter, hafterLater, hnone, hn, after, if_pos (.inr hwait), expirations, expirations,
      expirations, if_neg hzero, if_neg (by omega), if_neg hzero, elapsed_before hwait, hnone]
    exact ⟨rfl, rfl⟩
  · have hmin : min next I64_MAX = next := Int.min_eq_left (by omega)
    have hnextZero : next ≠ 0 := by omega
    rw [hafter, hmin, hafterLater, after, if_neg (by omega), if_neg honce, expirations, expirations,
      expirations, if_neg hzero, if_neg hnextZero, if_neg hzero, hnext, ← hnext, Int.natCast_add,
      Int.add_mul, ← Int.add_assoc, hn]
    exact ⟨rfl, rfl⟩

theorem expirations_le (hdeadline : 0 ≤ deadline) (hinterval : 0 ≤ interval) (hnow : now < I64_MAX)
    :
    expirations deadline interval now ≤ U64_MAX := by
  unfold expirations
  split
  · exact Nat.zero_le _
  by_cases hearly : now < deadline
  · rw [elapsed_before hearly]
    exact Nat.zero_le _
  · have hle := elapsed_le hinterval (Int.not_lt.mp hearly)
    simp only [I64_MAX, U64_MAX] at *
    omega

theorem State.Armed.refresh (h : s.Armed) (hnow : now ≤ I64_MAX)
    (hrefresh : refresh s now = some s') : s'.Armed := by
  rw [refresh_eq h hnow] at hrefresh
  cases hrefresh
  exact ⟨after_nonneg h.deadline_nonneg h.interval_nonneg, after_le h.deadline_le,
    h.interval_nonneg, h.interval_le, Nat.min_le_right _ _⟩

theorem refresh_twice (h : s.Armed) (horder : now ≤ later) (hlater : later < I64_MAX) :
    (refresh s now).bind (refresh · later) = refresh s later := by
  have hnow : now ≤ I64_MAX := by omega
  obtain ⟨hdeadline, hcount⟩ := after_after h.deadline_nonneg h.interval_nonneg horder hlater
  have harmed := h.refresh hnow (refresh_eq h hnow)
  rw [refresh_eq h hnow, Option.bind_some, refresh_eq harmed (Int.le_of_lt hlater),
    refresh_eq h (Int.le_of_lt hlater)]
  have hticks : min (min (s.ticks + expirations s.deadline s.interval now) U64_MAX +
      expirations (after s.deadline s.interval now) s.interval later) U64_MAX =
      min (s.ticks + expirations s.deadline s.interval later) U64_MAX := by
    rw [← hcount]
    omega
  dsimp only
  rw [hdeadline, hticks]

/-! ### Histories -/

/-- A timer, and what became of its expirations since it was armed last. -/
structure History where
  timer : State
  /-- What the last `settime` installed. -/
  deadline : Int
  interval : Int
  /-- The sum of the counts that `read` returned. -/
  reported : Nat
  /-- The sum of what was pending when `read` reported a cancellation. -/
  discarded : Nat
  /-- The clock when the timer was refreshed last. -/
  seen : Option Int
  deriving DecidableEq

def History.new (clock : Nat) : History := ⟨create clock, 0, 0, 0, 0, none⟩

/-- What the call installs, if it is a `settime` that does. -/
def installs (s : State) (host : Host) : Call → Option Rearm
  | .settime flags spec =>
    if flags &&& ~~~3 ≠ 0 then none else (rearm s flags spec host).toOption
  | _ => none

/-- `read` reports a cancellation. -/
def acknowledges (s : State) (host : Host) : Call → Bool
  | .read _ =>
    match canceled s host.generation, host.nextGeneration with
    | .ok true, .ok _ => true
    | _, _ => false
  | _ => false

/-- The clock, when the call refreshes the timer that is set. -/
def refreshes (s : State) (host : Host) : Call → Option Int
  | .settime _ _ => none
  | .gettime => (s.observe host).toOption
  | .poll => host.now.toOption
  | .read _ =>
    match canceled s host.generation with
    | .ok false => host.now.toOption
    | _ => none

/-- The count that a call returned. -/
def returned : Except Nat Answer → Nat
  | .ok (.count ticks) => ticks
  | _ => 0

def History.record (h : History) (host : Host) (call : Call) : Option History :=
  (h.timer.call host call).map fun (timer, answer) =>
    match installs h.timer host call with
    | some arm => ⟨timer, arm.deadline, arm.interval, 0, 0, none⟩
    | none =>
      { h with
        timer
        reported := h.reported + returned answer
        discarded := h.discarded + if acknowledges h.timer host call then h.timer.ticks else 0
        seen := (refreshes h.timer host call).or h.seen }

/-- Nothing overflowed so far. -/
def History.step (h : Option History) (input : Host × Call) : Option History :=
  h.bind (·.record input.1 input.2)

/-- The clock is not negative, not in its last nanosecond, and not set back since the last look at
the timer. -/
def InOrder (h : Option History) (input : Host × Call) : Prop :=
  ∀ now, input.1.now = .ok now → 0 ≤ now ∧ now < I64_MAX ∧
    ∀ history ∈ h, ∀ seen ∈ history.seen, seen ≤ now

/-- All expirations that were seen are accounted for, and the next one is not due yet. -/
def History.Counted (h : History) : Prop :=
  match h.seen with
  | none => h.reported + h.discarded + h.timer.ticks = 0
  | some now =>
    h.reported + h.discarded + h.timer.ticks =
      {k : Nat | h.deadline ≠ 0 ∧ h.deadline + k * h.interval ≤ now ∧
        (h.interval = 0 → k = 0)}.ncard ∧
    (h.timer.deadline = 0 ∨ now < h.timer.deadline)

/-- The timer is what the refreshes have made of the deadline it was armed with. -/
structure History.Sound (h : History) : Prop where
  armed : h.timer.Armed
  deadline_nonneg : 0 ≤ h.deadline
  interval : h.timer.interval = h.interval
  deadline : h.timer.deadline = match h.seen with
    | none => h.deadline
    | some now => after h.deadline h.interval now
  counted : h.reported + h.discarded + h.timer.ticks = match h.seen with
    | none => 0
    | some now => expirations h.deadline h.interval now
  seen_lt : ∀ now ∈ h.seen, now < I64_MAX

theorem expirations_eq_ncard (hinterval : 0 ≤ interval) :
    expirations deadline interval now = {k : Nat | deadline ≠ 0 ∧ deadline + k * interval ≤ now ∧
        (interval = 0 → k = 0)}.ncard := by
  unfold expirations
  split
  · next hzero => simp [hzero]
  · next harmed => simp [harmed, elapsed_eq_ncard hinterval]

theorem History.Sound.counted_ncard {h : History} (hsound : h.Sound) : h.Counted := by
  have hcounted := hsound.counted
  have hinterval : 0 ≤ h.interval := hsound.interval ▸ hsound.armed.interval_nonneg
  unfold History.Counted
  cases hseen : h.seen with
  | none =>
    rw [hseen] at hcounted
    exact hcounted
  | some now =>
    have hdeadline := hsound.deadline
    rw [hseen] at hcounted hdeadline
    refine ⟨hcounted.trans (expirations_eq_ncard hinterval), ?_⟩
    dsimp only at hdeadline
    rw [hdeadline]
    exact lt_after hinterval (hsound.seen_lt now hseen)

theorem History.Sound.refresh {h : History} (hsound : h.Sound) (hnow : now < I64_MAX)
    (horder : ∀ seen ∈ h.seen, seen ≤ now) :
    ∃ s', Timer.refresh h.timer now = some s' ∧
      History.Sound { h with timer := s', seen := some now } := by
  have harmed := hsound.armed
  have hinterval : 0 ≤ h.interval := hsound.interval ▸ harmed.interval_nonneg
  refine ⟨_, refresh_eq harmed (Int.le_of_lt hnow), harmed.refresh (Int.le_of_lt hnow)
    (refresh_eq harmed (Int.le_of_lt hnow)), hsound.deadline_nonneg, hsound.interval, ?_, ?_, ?_⟩
  · cases hseen : h.seen with
    | none =>
      have hdeadline := hsound.deadline
      rw [hseen] at hdeadline
      dsimp only at hdeadline ⊢
      rw [hdeadline, hsound.interval]
    | some seen =>
      have hdeadline := hsound.deadline
      rw [hseen] at hdeadline
      dsimp only at hdeadline ⊢
      rw [hdeadline, hsound.interval]
      exact (after_after hsound.deadline_nonneg hinterval (horder seen hseen) hnow).1
  · have hcounted := hsound.counted
    have hdeadline := hsound.deadline
    have hle := expirations_le hsound.deadline_nonneg hinterval hnow
    dsimp only
    cases hseen : h.seen with
    | none =>
      rw [hseen] at hcounted hdeadline
      dsimp only at hcounted hdeadline
      rw [hdeadline, hsound.interval]
      omega
    | some seen =>
      rw [hseen] at hcounted hdeadline
      dsimp only at hcounted hdeadline
      have hsum := (after_after hsound.deadline_nonneg hinterval (horder seen hseen) hnow).2
      rw [hdeadline, hsound.interval]
      omega
  · intro seen hseen
    cases hseen
    exact hnow

theorem History.sound_new (clock : Nat) : (History.new clock).Sound :=
  have hmax : (0 : Int) ≤ I64_MAX := by decide
  ⟨⟨Int.le_refl _, hmax, Int.le_refl _, hmax, Nat.zero_le _⟩, Int.le_refl _, rfl, rfl, rfl, nofun⟩

/-! ### Calls -/

theorem nanos_ok {t : Timespec} {n : Int} (h : t.nanos = .ok n) : 0 ≤ n ∧ n ≤ I64_MAX := by
  unfold Timespec.nanos at h
  split at h
  · cases h
  · next hvalid =>
    cases h
    simp only [saturate, I64_MIN, I64_MAX]
    omega

theorem hostDeadline_ok {absolute : Bool} {value : Int} {offset : Except Nat Int} (hnow : 0 ≤ now)
    (h : hostDeadline absolute value now offset = .ok deadline)
    (hvalue : 0 ≤ value) : 0 ≤ deadline ∧ deadline ≤ I64_MAX := by
  unfold hostDeadline at h
  split at h
  · cases h
    exact ⟨Int.le_refl _, by decide⟩
  split at h
  · obtain ⟨shift, -, hshift⟩ := bind_ok.mp h
    unfold checkedSub at hshift
    split at hshift
    · next heq =>
      split at heq
      · next hrange =>
        cases heq
        cases hshift
        simp only [I64_MAX] at *
        omega
      · cases heq
    · cases hshift
  · cases h
    simp only [saturate, I64_MIN, I64_MAX]
    omega

theorem rearm_ok {flags : BitVec 32} {spec : Itimerspec} {host : Host} {arm : Rearm}
    (h : rearm s flags spec host = .ok arm) (hnow : ∀ now, host.now = .ok now → 0 ≤ now) :
    host.now = .ok arm.now ∧ (0 ≤ arm.deadline ∧ arm.deadline ≤ I64_MAX) ∧
      0 ≤ arm.interval ∧ arm.interval ≤ I64_MAX := by
  unfold rearm at h
  obtain ⟨interval, hinterval, h⟩ := bind_ok.mp h
  obtain ⟨value, hvalue, h⟩ := bind_ok.mp h
  obtain ⟨canceled, -, h⟩ := bind_ok.mp h
  dsimp only at h
  obtain ⟨generation, -, h⟩ := bind_ok.mp h
  obtain ⟨now, hclock, h⟩ := bind_ok.mp h
  obtain ⟨deadline, hdeadline, h⟩ := bind_ok.mp h
  cases h
  exact ⟨hclock, hostDeadline_ok (hnow now hclock) hdeadline (nanos_ok hvalue).1,
    nanos_ok hinterval⟩

theorem remaining_some (h : s.Armed) (hnow : 0 ≤ now) (hle : now ≤ I64_MAX) :
    ∃ left, remaining s now = some left := by
  unfold remaining
  rw [checkedSub_nonneg h.deadline_nonneg h.deadline_le hnow hle]
  exact ⟨_, rfl⟩

variable {h : History} {host : Host} {call : Call} {answer : Except Nat Answer}

/-- A call that is not a `settime`, or one that fails. -/
theorem History.record_eq (hcall : h.timer.call host call = some (s', answer))
    (hinstalls : installs h.timer host call = none) :
    h.record host call = some { h with
      timer := s'
      reported := h.reported + returned answer
      discarded := h.discarded + if acknowledges h.timer host call then h.timer.ticks else 0
      seen := (refreshes h.timer host call).or h.seen } := by
  rw [History.record, hcall, Option.map_some, hinstalls]

theorem History.Sound.failed (hsound : h.Sound) {e : Nat}
    (hcall : h.timer.call host call = some (h.timer, .error e))
    (hinstalls : installs h.timer host call = none)
    (hrefreshes : refreshes h.timer host call = none)
    (hkeeps : acknowledges h.timer host call = false) :
    ∃ h', h.record host call = some h' ∧ h'.Sound := by
  refine ⟨_, History.record_eq hcall hinstalls, ?_⟩
  rw [hrefreshes, hkeeps]
  exact hsound

theorem History.Sound.looked (hsound : h.Sound)
    (hsound' : History.Sound { h with timer := s', seen := some now })
    (hcall : h.timer.call host call = some (s', answer))
    (hanswer : returned answer = 0)
    (hinstalls : installs h.timer host call = none)
    (hrefreshes : refreshes h.timer host call = some now)
    (hkeeps : acknowledges h.timer host call = false) :
    ∃ h', h.record host call = some h' ∧ h'.Sound := by
  refine ⟨_, History.record_eq hcall hinstalls, ?_⟩
  rw [hrefreshes, hkeeps, hanswer]
  exact hsound'

theorem observe_now (h : s.observe host = .ok now) : host.now = .ok now := by
  unfold State.observe at h
  split at h
  · obtain ⟨_, -, h⟩ := bind_ok.mp h
    exact h
  · exact h

theorem History.Sound.installed (hsound : h.Sound) {flags : BitVec 32} {spec : Itimerspec}
    {arm : Rearm} (hflags : ¬flags &&& ~~~3 ≠ 0) (harm : rearm h.timer flags spec host = .ok arm)
    (hnow : ∀ now, host.now = .ok now → 0 ≤ now ∧ now < I64_MAX) :
    ∃ h', h.record host (.settime flags spec) = some h' ∧ h'.Sound := by
  obtain ⟨hclock, hdeadline, hinterval⟩ := rearm_ok harm fun now heq => (hnow now heq).1
  obtain ⟨hnonneg, hlt⟩ := hnow _ hclock
  have hle := Int.le_of_lt hlt
  obtain ⟨s', hrefresh⟩ : ∃ s', Timer.refresh h.timer arm.now = some s' :=
    ⟨_, refresh_eq hsound.armed hle⟩
  obtain ⟨old, hold⟩ := remaining_some (hsound.armed.refresh hle hrefresh) hnonneg hle
  have hcall : h.timer.call host (.settime flags spec) = some ({ s' with
      interval := arm.interval
      deadline := arm.deadline
      ticks := 0
      cancelOnSet := arm.cancelOnSet
      clockGeneration := arm.generation },
      if arm.canceled then .error ECANCELED else .ok (.setting old)) := by
    show settime h.timer flags spec host = _
    rw [settime, if_neg hflags, harm]
    dsimp only
    rw [hrefresh, Option.bind_eq_bind, Option.bind_some, hold]
    rfl
  have hinstalls : installs h.timer host (.settime flags spec) = some arm := by
    rw [installs, if_neg hflags, harm]
    rfl
  refine ⟨_, by rw [History.record, hcall, Option.map_some, hinstalls], ?_⟩
  exact ⟨⟨hdeadline.1, hdeadline.2, hinterval.1, hinterval.2, Nat.zero_le _⟩, hdeadline.1, rfl, rfl,
    rfl, nofun⟩

theorem History.Sound.called (hsound : h.Sound)
    (horder : ∀ now, host.now = .ok now → 0 ≤ now ∧ now < I64_MAX ∧ ∀ seen ∈ h.seen, seen ≤ now) :
    ∃ h', h.record host call = some h' ∧ h'.Sound := by
  cases call with
  | settime flags spec =>
    by_cases hflags : flags &&& ~~~3 ≠ 0
    · exact hsound.failed (if_pos hflags) (if_pos hflags) rfl rfl
    · cases harm : rearm h.timer flags spec host with
      | error e =>
        refine hsound.failed (e := e) ?_ ?_ rfl rfl
        · show settime h.timer flags spec host = _
          rw [settime, if_neg hflags, harm]
        · rw [installs, if_neg hflags, harm]
          rfl
      | ok arm =>
        exact hsound.installed hflags harm fun now heq => ⟨(horder now heq).1, (horder now heq).2.1⟩
  | gettime =>
    cases hnow : h.timer.observe host with
    | error e =>
      refine hsound.failed (e := e) ?_ rfl ?_ rfl
      · show gettime h.timer host = _
        rw [gettime, hnow]
      · rw [refreshes, hnow]
        rfl
    | ok now =>
      obtain ⟨hnonneg, hlt, hseen⟩ := horder now (observe_now hnow)
      obtain ⟨s', hrefresh, hsound'⟩ := hsound.refresh hlt hseen
      obtain ⟨left, hleft⟩ := remaining_some hsound'.armed hnonneg (Int.le_of_lt hlt)
      have hcall : h.timer.call host .gettime = some (s', .ok (.setting left)) := by
        show gettime h.timer host = _
        rw [gettime, hnow]
        dsimp only
        rw [hrefresh, Option.bind_eq_bind, Option.bind_some, hleft]
        rfl
      refine hsound.looked hsound' hcall rfl rfl ?_ rfl
      rw [refreshes, hnow]
      rfl
  | poll =>
    cases hnow : host.now with
    | error e =>
      refine hsound.failed (e := e) ?_ rfl ?_ rfl
      · show poll h.timer host = _
        rw [poll, hnow]
      · rw [refreshes, hnow]
        rfl
    | ok now =>
      obtain ⟨-, hlt, hseen⟩ := horder now hnow
      obtain ⟨s', hrefresh, hsound'⟩ := hsound.refresh hlt hseen
      have hcall : h.timer.call host .poll = some (s', if s'.ticks ≠ 0 then .ok (.ready true)
          else (canceled s' host.generation).map .ready) := by
        show poll h.timer host = _
        rw [poll, hnow]
        dsimp only
        rw [hrefresh]
        rfl
      refine hsound.looked hsound' hcall ?_ rfl ?_ rfl
      · split
        · rfl
        · cases canceled s' host.generation <;> rfl
      · rw [refreshes, hnow]
        rfl
  | read nonblock =>
    cases hcanceled : canceled h.timer host.generation with
    | error e =>
      refine hsound.failed (e := e) ?_ rfl ?_ ?_
      · show read h.timer nonblock host = _
        rw [read, hcanceled]
      · rw [refreshes, hcanceled]
      · rw [acknowledges, hcanceled]
    | ok gone =>
      cases gone with
      | true =>
        cases hgeneration : host.nextGeneration with
        | error e =>
          refine hsound.failed (e := e) ?_ rfl ?_ ?_
          · show read h.timer nonblock host = _
            rw [read, hcanceled]
            dsimp only
            rw [hgeneration]
          · rw [refreshes, hcanceled]
          · rw [acknowledges, hcanceled, hgeneration]
        | ok generation =>
          have hcall : h.timer.call host (.read nonblock) = some ({ h.timer with
              clockGeneration := generation, ticks := 0 }, .error ECANCELED) := by
            show read h.timer nonblock host = _
            rw [read, hcanceled]
            dsimp only
            rw [hgeneration]
          have hrefreshes : refreshes h.timer host (.read nonblock) = none := by
            rw [refreshes, hcanceled]
          have hdrops : acknowledges h.timer host (.read nonblock) = true := by
            rw [acknowledges, hcanceled, hgeneration]
          refine ⟨_, History.record_eq hcall rfl, ?_⟩
          rw [hrefreshes, hdrops]
          refine ⟨{ hsound.armed with ticks_le := Nat.zero_le _ }, hsound.deadline_nonneg,
            hsound.interval, hsound.deadline, ?_, hsound.seen_lt⟩
          refine Eq.trans ?_ hsound.counted
          simp only [returned, if_true]
          omega
      | false =>
        cases hnow : host.now with
        | error e =>
          refine hsound.failed (e := e) ?_ rfl ?_ ?_
          · show read h.timer nonblock host = _
            rw [read, hcanceled]
            dsimp only
            rw [hnow]
          · rw [refreshes, hcanceled]
            dsimp only
            rw [hnow]
            rfl
          · rw [acknowledges, hcanceled]
        | ok now =>
          obtain ⟨-, hlt, hseen⟩ := horder now hnow
          obtain ⟨s', hrefresh, hsound'⟩ := hsound.refresh hlt hseen
          have hrefreshes : refreshes h.timer host (.read nonblock) = some now := by
            rw [refreshes, hcanceled]
            dsimp only
            rw [hnow]
            rfl
          have hkeeps : acknowledges h.timer host (.read nonblock) = false := by
            rw [acknowledges, hcanceled]
          have hcall : h.timer.call host (.read nonblock) =
              if s'.ticks ≠ 0 then some ({ s' with ticks := 0 }, .ok (.count s'.ticks))
              else if nonblock then some (s', .error EAGAIN) else some (s', .ok .waits) := by
            show read h.timer nonblock host = _
            rw [read, hcanceled]
            dsimp only
            rw [hnow]
            dsimp only
            rw [hrefresh]
            rfl
          by_cases hticks : s'.ticks ≠ 0
          · rw [if_pos hticks] at hcall
            refine ⟨_, History.record_eq hcall rfl, ?_⟩
            rw [hrefreshes, hkeeps]
            refine ⟨{ hsound'.armed with ticks_le := Nat.zero_le _ },
              hsound.deadline_nonneg, hsound'.interval, hsound'.deadline, ?_,
              hsound'.seen_lt⟩
            have hcounted := hsound'.counted
            simp only [returned, Option.some_or, Bool.false_eq_true, if_false] at hcounted ⊢
            omega
          · rw [if_neg hticks] at hcall
            cases nonblock with
            | true | false => exact hsound.looked hsound' hcall rfl rfl hrefreshes hkeeps

/-! ### Runs -/

/-- A history in which nothing overflowed, and every expiration was counted. -/
def Exact (h : Option History) : Prop := ∃ history, h = some history ∧ history.Counted

/-- **Every expiration is counted once.**  Two refreshes are the later one, after which the deadline
is later than the clock; and whatever calls look at a timer, in any order, the counts that `read`
returned, those that a canceled `read` threw away and the pending count are the expirations since
the timer was armed. -/
theorem expirations_counted (clock : Nat) (inputs : List (Host × Call))
    (horder : EveryStep History.step InOrder (some (History.new clock)) inputs) :
    (∀ s now later, s.Armed → now ≤ later → later < I64_MAX →
      ∃ s', refresh s later = some s' ∧ (refresh s now).bind (refresh · later) = some s' ∧
        (s'.deadline = 0 ∨ later < s'.deadline)) ∧
    EveryState History.step Exact (some (History.new clock)) inputs := by
  constructor
  · intro s now later harmed hnow hlater
    refine ⟨_, refresh_eq harmed (Int.le_of_lt hlater), ?_, lt_after harmed.interval_nonneg hlater⟩
    rw [refresh_twice harmed hnow hlater, refresh_eq harmed (Int.le_of_lt hlater)]
  · have hsound : EveryState History.step (fun h => ∃ history, h = some history ∧ history.Sound)
        (some (History.new clock)) inputs := by
      refine EveryState.of_preserved (fun h input hsome hok => ?_)
        ⟨_, rfl, History.sound_new clock⟩ horder
      obtain ⟨history, rfl, hsound⟩ := hsome
      obtain ⟨host, call⟩ := input
      exact hsound.called fun now heq =>
        ⟨(hok now heq).1, (hok now heq).2.1, (hok now heq).2.2 history rfl⟩
    exact hsound.mono fun h ⟨history, heq, hhistory⟩ => ⟨history, heq, hhistory.counted_ncard⟩

/-- Answers of a host whose clock never changes. -/
def Host.showing (now : Int) : Host := ⟨.ok now, .ok 0, .ok 0, .ok 0⟩

/-- Every 3 ns from 10 ns on: two expirations are read at 15 ns. -/
def everyThree : List (Host × Call) :=
  [(.showing 0, .settime 1 ⟨⟨0, 3⟩, ⟨0, 10⟩⟩), (.showing 12, .poll), (.showing 15, .gettime), (.showing 15, .read true)]

theorem expirations_counted_everyThree : run History.step (some (History.new 1)) everyThree =
      some ⟨⟨1, false, 16, 3, 0, 0⟩, 10, 3, 2, 0, some 15⟩ ∧
    EveryStep History.step InOrder (some (History.new 1)) everyThree ∧
    EveryState History.step Exact (some (History.new 1)) everyThree := by
  have horder : EveryStep History.step InOrder (some (History.new 1)) everyThree := by
    refine ⟨fun now h => ?_, fun now h => ?_, fun now h => ?_, fun now h => ?_, trivial⟩
    all_goals
      cases h
      exact ⟨by decide, by decide, by decide⟩
  exact ⟨by decide, horder, (expirations_counted 1 everyThree horder).2⟩

/-- The deadline is cut off at `i64::MAX`: each refresh in that nanosecond finds another expiration.
And a `read` that reports a cancellation throws a pending one away. -/
theorem expirations_miscounted :
    refresh ⟨1, false, 2, I64_MAX, 0, 0⟩ I64_MAX = some ⟨1, false, I64_MAX, I64_MAX, 1, 0⟩ ∧
    refresh ⟨1, false, I64_MAX, I64_MAX, 1, 0⟩ I64_MAX = some ⟨1, false, I64_MAX, I64_MAX, 2, 0⟩ ∧
    run History.step (some (History.new 0))
      [(.showing 0, .settime 3 ⟨⟨0, 0⟩, ⟨0, 1⟩⟩), (.showing 10, .poll),
        (⟨.ok 10, .ok 1, .ok 1, .ok 0⟩, .read true)] =
      some ⟨⟨0, true, 0, 0, 0, 1⟩, 1, 0, 0, 1, some 10⟩ := by
  decide

end Kinakaze.Timer
