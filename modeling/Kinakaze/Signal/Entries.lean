import Kinakaze.Signal.Queue
import Mathlib.Algebra.BigOperators.Group.List.Basic

/-!
# The entries of the queue

What the queue says about bits, values and expirations, and how that changes when an entry comes,
takes in an expiration, or is taken.
-/

namespace Kinakaze.Signal

open Library

/-- The expirations that a signal on the way to its thread stands for. -/
def Flight.expirations (id : Int) (f : Flight) : Int :=
  match f.timer with
  | none => 0
  | some t => t.expirations id

def Flight.recordOf (signal : Nat) (f : Flight) : Option Record := f.timer.bind (·.recordOf signal)

/-- An entry with a value is for the process and the value's signal. -/
def TimerSignal.Ok (t : TimerSignal) : Prop :=
  ∀ r, t.queued = some r → t.target = none ∧ t.signal = r.signal

/-- What a signal on the way has is for its target and signal. -/
def Flight.Ok (f : Flight) : Prop :=
  ∀ t, f.timer = some t → t.target = f.target ∧ t.signal = f.signal ∧ t.Ok

/-- The expirations go to the entry that the timer has: it is for the same target and signal, and
the number stays in range. -/
def Mergeable (s : State) (target : Option Nat) (signal : Nat) (id overrun : Int) : Prop :=
  ∀ t ∈ s.queue, t.isTimer id → t.target = target ∧ t.signal = signal ∧
    InRange (overrun + 1) ∧ InRange (t.overrun + (overrun + 1))

/-! ## Merging -/

section Merge

variable {id overrun : Int} {queue : List TimerSignal}

theorem filterMap_merge {β : Type} {f : TimerSignal → Option β}
    (hf : ∀ t overrun, f { t with overrun := overrun } = f t) :
    (merge id overrun queue).filterMap f = queue.filterMap f := by
  induction queue with
  | nil => rfl
  | cons t rest ih =>
    rw [merge]
    split
    · rw [List.filterMap_cons, List.filterMap_cons, hf]
    · rw [List.filterMap_cons, List.filterMap_cons, ih]

variable {p : TimerSignal → Bool}

theorem countP_merge (hp : ∀ t overrun, p { t with overrun := overrun } = p t) :
    (merge id overrun queue).countP p = queue.countP p := by
  induction queue with
  | nil => rfl
  | cons t rest ih =>
    rw [merge]
    split
    · rw [List.countP_cons, List.countP_cons, hp]
    · rw [List.countP_cons, List.countP_cons, ih]

theorem any_merge (hp : ∀ t overrun, p { t with overrun := overrun } = p t) :
    (merge id overrun queue).any p = queue.any p := by
  induction queue with
  | nil => rfl
  | cons t rest ih =>
    rw [merge]
    split
    · rw [List.any_cons, List.any_cons, hp]
    · rw [List.any_cons, List.any_cons, ih]

theorem ok_merge (h : ∀ t ∈ queue, t.Ok) : ∀ t ∈ merge id overrun queue, t.Ok := by
  induction queue with
  | nil => exact h
  | cons t rest ih =>
    have hrest := ih fun x hx => h x (List.mem_cons_of_mem _ hx)
    rw [merge]
    split
    · intro x hx
      rcases List.mem_cons.mp hx with rfl | hx
      · exact h t List.mem_cons_self
      · exact h x (List.mem_cons_of_mem _ hx)
    · intro x hx
      rcases List.mem_cons.mp hx with rfl | hx
      · exact h x List.mem_cons_self
      · exact hrest x hx

theorem sum_merge (hsome : queue.any (·.isTimer id))
    (hrange : ∀ t ∈ queue, t.isTimer id → InRange (overrun + 1) ∧
      InRange (t.overrun + (overrun + 1))) (other : Int) :
    ((merge id overrun queue).map (·.expirations other)).sum =
      (queue.map (·.expirations other)).sum + (if other = id then overrun + 1 else 0) := by
  induction queue with
  | nil => cases hsome
  | cons t rest ih =>
    rw [merge]
    by_cases hthis : t.isTimer id
    · obtain ⟨hfirst, hsecond⟩ := hrange t List.mem_cons_self hthis
      rw [if_pos hthis, saturatingAdd_eq hfirst, saturatingAdd_eq hsecond]
      simp only [List.map_cons, List.sum_cons]
      have hparts : t.queued.isNone = true ∧ t.id = id := by
        simpa [TimerSignal.isTimer] using hthis
      have hexpirations : TimerSignal.expirations other
          { t with overrun := t.overrun + (overrun + 1) } =
          t.expirations other + (if other = id then overrun + 1 else 0) := by
        unfold TimerSignal.expirations TimerSignal.isTimer
        dsimp only
        rw [hparts.1, hparts.2]
        by_cases hid : id = other
        · subst hid
          simp
          omega
        · have hne : ¬ other = id := fun h => hid h.symm
          simp [hid, hne]
      rw [hexpirations]
      omega
    · have hrest := ih (by simpa [hthis] using hsome)
        fun x hx => hrange x (List.mem_cons_of_mem _ hx)
      rw [if_neg hthis]
      simp only [List.map_cons, List.sum_cons]
      rw [hrest]
      omega

end Merge

/-! ## Bits -/

theorem setBit_apply (bits : Option Nat → Nat → Bool) (target t : Option Nat) (signal n : Nat)
    (value : Bool) :
    setBit bits target signal value t n = if t = target ∧ n = signal then value else bits t n :=
  rfl

variable {target : Option Nat} {signal : Nat} {t : TimerSignal}

theorem isFor_iff : t.isFor target signal = true ↔ t.target = target ∧ t.signal = signal := by
  unfold TimerSignal.isFor
  rw [Bool.and_eq_true, beq_iff_eq, beq_iff_eq]
  exact and_comm

variable {bit raised : Option Nat → Nat → Bool} {queue : List TimerSignal}

variable {queue' : List TimerSignal}

theorem bits_push (h : ∀ t n, bit t n = (raised t n || queue.any (·.isFor t n)))
    (hthis : queue'.any (·.isFor target signal)) (hother : ∀ t n, ¬ (t = target ∧ n = signal) →
      queue'.any (·.isFor t n) = queue.any (·.isFor t n)) (t : Option Nat) (n : Nat) :
    setBit bit target signal true t n = (raised t n || queue'.any (·.isFor t n)) := by
  rw [setBit_apply]
  by_cases hsame : t = target ∧ n = signal
  · rw [if_pos hsame, hsame.1, hsame.2, hthis, Bool.or_true]
  · rw [if_neg hsame, h, hother t n hsame]

theorem bits_raise
    (h : ∀ t n, bit t n = (raised t n || queue.any (·.isFor t n))) (target : Option Nat)
    (signal : Nat) (t : Option Nat) (n : Nat) :
    setBit bit target signal true t n =
      (setBit raised target signal true t n || queue.any (·.isFor t n)) := by
  rw [setBit_apply, setBit_apply]
  by_cases hsame : t = target ∧ n = signal
  · rw [if_pos hsame, if_pos hsame, Bool.true_or]
  · rw [if_neg hsame, if_neg hsame, h]

theorem change_apply {α β : Type} [DecidableEq α] (f : α → β) (a b : α) (g : β → β) :
    change f a g b = if b = a then g (f a) else f b := by
  unfold change
  rw [Function.update_apply]

/-! ## Timers that expire -/

theorem expirations_timer (ht : t.queued = none) (id : Int) :
    t.expirations id = if id = t.id then t.overrun + 1 else 0 := by
  unfold TimerSignal.expirations TimerSignal.isTimer
  rw [ht]
  by_cases hid : id = t.id
  · simp [hid]
  · have hne : ¬ t.id = id := fun h => hid h.symm
    simp [hid, hne]

/-- What an expiration `t` of a timer does to the queue, whether there was an entry or not. -/
structure Added (t : TimerSignal) (queue queue' : List TimerSignal) : Prop where
  any_eq : ∀ target signal, queue'.any (·.isFor target signal) =
    (queue.any (·.isFor target signal) || t.isFor target signal)
  records : ∀ signal, queue'.filterMap (·.recordOf signal) = queue.filterMap (·.recordOf signal)
  single : (∀ id, queue.countP (·.isTimer id) ≤ 1) → ∀ id, queue'.countP (·.isTimer id) ≤ 1
  sum_eq : ∀ id, (queue'.map (·.expirations id)).sum =
    (queue.map (·.expirations id)).sum + t.expirations id
  ok : (∀ x ∈ queue, x.Ok) → ∀ x ∈ queue', x.Ok

theorem added_new (ht : t.queued = none)
    (hnone : ¬ queue.any (·.isTimer t.id)) (h : queue' = queue ++ [t] ∨ queue' = t :: queue) :
    Added t queue queue' := by
  have hperm : queue'.Perm (t :: queue) := by
    rcases h with rfl | rfl
    · exact List.perm_append_singleton t queue
    · exact .refl _
  have hrecord : ∀ signal, t.recordOf signal = none := by
    intro signal
    rw [TimerSignal.recordOf, ht]
    rfl
  exact {
    any_eq := fun target signal => by
      rw [hperm.any_eq, List.any_cons, Bool.or_comm]
    records := fun signal => by
      rcases h with rfl | rfl
      · rw [List.filterMap_append, List.filterMap_cons, hrecord, List.filterMap_nil,
          List.append_nil]
      · rw [List.filterMap_cons, hrecord]
    single := fun hsingle id => by
      rw [hperm.countP_eq, List.countP_cons]
      have hold := hsingle id
      split
      · next hid =>
        have hsame : t.id = id := by
          unfold TimerSignal.isTimer at hid
          simpa using (Bool.and_eq_true_iff.mp hid).2
        subst hsame
        have hzero : queue.countP (·.isTimer t.id) = 0 := by
          rw [List.countP_eq_zero]
          intro x hx hx'
          exact hnone (List.any_eq_true.mpr ⟨x, hx, hx'⟩)
        omega
      · exact hold
    sum_eq := fun id => by
      rw [(hperm.map _).sum_eq, List.map_cons, List.sum_cons, Int.add_comm]
    ok := fun hok x hx => by
      rcases List.mem_cons.mp (hperm.mem_iff.mp hx) with rfl | hx
      · intro r hr
        rw [ht] at hr
        cases hr
      · exact hok x hx }

theorem added_merge {s : State} (ht : t.queued = none) (hsome : s.queue.any (·.isTimer t.id))
    (h : Mergeable s t.target t.signal t.id t.overrun) :
    Added t s.queue (merge t.id t.overrun s.queue) where
  any_eq := fun target signal => by
    rw [any_merge fun _ _ => rfl]
    by_cases hthis : t.isFor target signal
    · obtain ⟨x, hx, hid⟩ := List.any_eq_true.mp hsome
      obtain ⟨htarget, hsignal, -⟩ := h x hx hid
      obtain ⟨rfl, rfl⟩ := isFor_iff.mp hthis
      have hany : s.queue.any (·.isFor t.target t.signal) :=
        List.any_eq_true.mpr ⟨x, hx, isFor_iff.mpr ⟨htarget, hsignal⟩⟩
      rw [hany, Bool.true_or]
    · rw [Bool.not_eq_true] at hthis
      rw [hthis, Bool.or_false]
  records := fun signal => filterMap_merge fun _ _ => rfl
  single := fun hsingle id => by
    rw [countP_merge fun _ _ => rfl]
    exact hsingle id
  sum_eq := fun id => by
    rw [sum_merge hsome fun x hx hid => (h x hx hid).2.2, expirations_timer ht]
  ok := ok_merge

/-! ## Parts of the queue -/

theorem filterMap_filter {α β : Type} {p : α → Bool} {f : α → Option β} {l : List α}
    (h : ∀ a ∈ l, p a = false → f a = none) : (l.filter p).filterMap f = l.filterMap f := by
  induction l with
  | nil => rfl
  | cons a rest ih =>
    have hrest := ih fun b hb => h b (List.mem_cons_of_mem _ hb)
    cases hp : p a with
    | true => rw [List.filter_cons_of_pos hp, List.filterMap_cons, List.filterMap_cons, hrest]
    | false =>
      have hnone := h a List.mem_cons_self hp
      have hneg : ¬ p a = true := by rw [hp]; exact Bool.false_ne_true
      rw [List.filter_cons_of_neg hneg, List.filterMap_cons, hnone, hrest]

theorem filterMap_cons_toList {α β : Type} (f : α → Option β) (a : α) (l : List α) :
    (a :: l).filterMap f = (f a).toList ++ l.filterMap f := by
  rw [List.filterMap_cons]
  cases f a <;> rfl

theorem sum_filter {α : Type} (p : α → Bool) (f : α → Int) (l : List α) :
    (l.map f).sum = ((l.filter p).map f).sum + ((l.filter fun a => !p a).map f).sum := by
  induction l with
  | nil => rfl
  | cons a rest ih =>
    rw [List.map_cons, List.sum_cons, ih]
    cases hp : p a with
    | true | false => simp [List.filter_cons, hp]; omega

variable {r : Record}

theorem recordOf_some (h : t.recordOf signal = some r) : t.queued = some r ∧ r.signal = signal := by
  obtain ⟨hqueued, hsignal⟩ := Option.filter_eq_some_iff.mp h
  exact ⟨hqueued, beq_iff_eq.mp hsignal⟩

theorem recordOf_eq_none (ht : t.Ok) (h : t.signal ≠ signal) : t.recordOf signal = none := by
  cases hrecord : t.recordOf signal with
  | none => rfl
  | some r =>
    obtain ⟨hqueued, hsignal⟩ := recordOf_some hrecord
    exact absurd ((ht r hqueued).2.trans hsignal) h

theorem recordOf_timer (ht : t.queued = none) (signal : Nat) : t.recordOf signal = none := by
  rw [TimerSignal.recordOf, ht]
  rfl

theorem recordOf_record (ht : t.queued = some r) (signal : Nat) :
    t.recordOf signal = if r.signal = signal then some r else none := by
  rw [TimerSignal.recordOf, ht, Option.filter]
  simp only [beq_iff_eq]

theorem expirations_record (ht : t.queued = some r) (id : Int) : t.expirations id = 0 := by
  unfold TimerSignal.expirations TimerSignal.isTimer
  rw [ht]
  rfl

/-- What taking the first entry for a target and a signal leaves. -/
structure Popped (target : Option Nat) (signal : Nat) (queue : List TimerSignal)
    (timer : Option TimerSignal) (queue' : List TimerSignal) : Prop where
  any_eq : ∀ t n, ¬ (t = target ∧ n = signal) → queue'.any (·.isFor t n) = queue.any (·.isFor t n)
  records : ∀ n, queue.filterMap (·.recordOf n) =
    (timer.bind (·.recordOf n)).toList ++ queue'.filterMap (·.recordOf n)
  sum_eq : ∀ id, (queue.map (·.expirations id)).sum =
    (Flight.expirations id ⟨0, target, signal, timer, none⟩) + (queue'.map (·.expirations id)).sum
  sub : queue'.Sublist queue
  ok : ∀ t, timer = some t → t.target = target ∧ t.signal = signal ∧ t.Ok

theorem Popped.bind_recordOf {n : Nat}
    {timer : Option TimerSignal} (h : Popped target signal queue timer queue') (hn : n ≠ signal) :
    timer.bind (·.recordOf n) = none := by
  cases htimer : timer with
  | none => rfl
  | some t =>
    obtain ⟨-, hsignal, ht⟩ := h.ok t htimer
    exact recordOf_eq_none ht (hsignal ▸ fun h => hn h.symm)

theorem popped (hok : ∀ t ∈ queue, t.Ok) (target : Option Nat)
    (signal : Nat) : Popped target signal queue (queue.find? (·.isFor target signal))
      (queue.eraseP (·.isFor target signal)) := by
  cases hfind : queue.find? (·.isFor target signal) with
  | none =>
    have hsame : queue.eraseP (·.isFor target signal) = queue := by
      refine List.eraseP_of_forall_not fun t ht => ?_
      exact List.find?_eq_none.mp hfind t ht
    rw [hsame]
    exact {
      any_eq := fun _ _ _ => rfl
      records := fun _ => rfl
      sum_eq := fun _ => (Int.zero_add _).symm
      sub := .refl _
      ok := nofun }
  | some t =>
    obtain ⟨hthis, before, after, rfl, hbefore⟩ := List.find?_eq_some_iff_append.mp hfind
    have hnot : ∀ x ∈ before, ¬ x.isFor target signal = true := by
      intro x hx
      have := hbefore x hx
      simpa using this
    have herase : (before ++ t :: after).eraseP (·.isFor target signal) = before ++ after := by
      rw [List.eraseP_append_right _ hnot, List.eraseP_cons_of_pos hthis]
    obtain ⟨htarget, hsignal⟩ := isFor_iff.mp hthis
    have ht : t.Ok := hok t (List.mem_append_right _ List.mem_cons_self)
    rw [herase]
    exact {
      any_eq := fun t' n hother => by
        have hfalse : t.isFor t' n = false := by
          rw [← Bool.not_eq_true, isFor_iff]
          rintro ⟨rfl, rfl⟩
          exact hother ⟨htarget, hsignal⟩
        rw [List.any_append, List.any_append, List.any_cons, hfalse, Bool.false_or]
      records := fun n => by
        rw [List.filterMap_append, List.filterMap_append, List.filterMap_cons, Option.bind_some]
        cases hrecord : t.recordOf n with
        | none => rfl
        | some r =>
          -- A value before this one would be for the same target and signal.
          have hempty : before.filterMap (·.recordOf n) = [] := by
            rw [List.filterMap_eq_nil_iff]
            intro x hx
            cases hx' : x.recordOf n with
            | none => rfl
            | some r' =>
              obtain ⟨hqueued, hr⟩ := recordOf_some hrecord
              obtain ⟨hqueued', hr'⟩ := recordOf_some hx'
              have hxOk := hok x (List.mem_append_left _ hx) r' hqueued'
              have htOk := ht r hqueued
              refine absurd (isFor_iff.mpr ⟨?_, ?_⟩) (hnot x hx)
              · rw [hxOk.1, ← htarget, htOk.1]
              · rw [hxOk.2, ← hsignal, htOk.2, hr, hr']
          rw [hempty]
          rfl
      sum_eq := fun id => by
        simp only [List.map_append, List.map_cons, List.sum_append, List.sum_cons,
          Flight.expirations]
        omega
      sub := List.Sublist.append_left (List.sublist_cons_self t after) before
      ok := fun x hx => by
        cases hx
        exact ⟨htarget, hsignal, ht⟩ }
end Kinakaze.Signal
