import Kinakaze.Inotify.Published

/-!
# Events in order

* `Queue.Tidy`: in the queue of a memory watch that event is the last, and the queue is
  then closed.
* `Core`: the invariant inside a call.  While watches are being dropped, `pending` are
  the descriptors whose last event is queued already.
-/

namespace Kinakaze.Inotify

open Library Std

/-! ## Events -/

@[simp] theorem length_wdBytes (wd : Int) : (wdBytes wd).length = 4 := length_leBytes 4 _

theorem wdBytes_injective {a b : Int} (ha : InI32 a) (hb : InI32 b) (h : wdBytes a = wdBytes b) :
    a = b := by
  have hsame := congrArg ofLe h
  rw [wdBytes, wdBytes, ofLe_leBytes, ofLe_leBytes] at hsame
  obtain ⟨ha, ha'⟩ := ha
  obtain ⟨hb, hb'⟩ := hb
  omega

theorem take_encodeEvent (wd : Int) (mask cookie : BitVec 32) (name : Bytes) :
    (encodeEvent wd mask cookie name).take 4 = wdBytes wd :=
  List.take_left' (length_wdBytes wd)

theorem eventMask_encodeEvent (wd : Int) (mask cookie : BitVec 32) (name : Bytes) :
    eventMask (encodeEvent wd mask cookie name) = mask := by
  have hmask : ((encodeEvent wd mask cookie name).drop 4).take 4 = leBytes 4 mask.toNat := by
    rw [encodeEvent, List.drop_left' (length_wdBytes wd), List.take_left' (length_leBytes 4 _)]
  rw [eventMask, hmask, ofNat_ofLe_leBytes 4 rfl]

theorem isIgnored_encodeEvent (wd : Int) (mask cookie : BitVec 32) (name : Bytes) :
    isIgnored (encodeEvent wd mask cookie name) = has mask IN_IGNORED := by
  rw [isIgnored, eventMask_encodeEvent]

theorem isIgnored_overflowEvent : isIgnored overflowEvent = false := by
  rw [overflowEvent, isIgnored_encodeEvent]
  decide

theorem isIgnored_ignoredEvent (wd : Int) : isIgnored (ignoredEvent wd) = true := by
  rw [ignoredEvent, isIgnored_encodeEvent]
  decide

theorem length_encodeEvent_lt (wd : Int) (mask cookie : BitVec 32) (name : Bytes) :
    (encodeEvent wd mask cookie name).length < 2 ^ 64 := by
  have hmod : ((name.length + 1 + 3) / 4 * 4) % 2 ^ 32 < 2 ^ 32 := Nat.mod_lt _ (by decide)
  simp only [encodeEvent, List.length_append, length_wdBytes, length_leBytes, List.length_replicate]
  split
  · simp
  · rw [List.length_take]
    omega

theorem has_and {mask other flag : BitVec 32} (h : has mask flag = false) :
    has (mask &&& other) flag = false := by
  unfold has at h ⊢
  rw [bne_eq_false_iff_eq] at h ⊢
  rw [BitVec.and_assoc, BitVec.and_comm other, ← BitVec.and_assoc, h]
  exact BitVec.zero_and

theorem isIgnored_rename (wd : Int) (event : Bytes) :
    isIgnored (rename wd event) = isIgnored event := by
  unfold rename
  split
  · rw [isIgnored, isIgnored, eventMask, eventMask, List.drop_left' (length_wdBytes wd)]
  · rfl

/-- `b` may be queued after `a`. -/
def Follows (a b : Bytes) : Prop := isIgnored a = true → b.take 4 ≠ a.take 4

variable {a event : Bytes}

theorem follows_of_not_ignored (h : isIgnored a = false) (b : Bytes) :
    Follows a b := fun htrue => by rw [h] at htrue; cases htrue

/-! ## Memory queues -/

structure Queue.Tidy (q : Queue) : Prop where
  count : q.events.length ≤ 4097
  length : ∀ event ∈ q.events, event.length < 2 ^ 64
  wd : ∀ event ∈ q.events, event.take 4 = wdBytes 0 ∨ event = overflowEvent
  last : q.events.Pairwise fun a _ => isIgnored a = false
  closed : ∀ event ∈ q.events, isIgnored event = true → q.mask = 0

variable {q : Queue}

theorem Queue.Tidy.read (h : q.Tidy) : q.read = .ok q :=
  Queue.read_eq ⟨h.count, h.length⟩

theorem Queue.Tidy.plain (h : q.Tidy) (hopen : q.mask ≠ 0) :
    ∀ event ∈ q.events, isIgnored event = false := by
  intro event hevent
  by_contra htrue
  exact hopen (h.closed event hevent (by simpa using htrue))

theorem Queue.Tidy.append (h : q.Tidy) (hopen : q.mask ≠ 0) (hroom : q.events.length < 4097)
    (hlength : event.length < 2 ^ 64)
    (hwd : event.take 4 = wdBytes 0 ∨ event = overflowEvent) {mask : BitVec 32}
    (hclosed : isIgnored event = true → mask = 0) :
    Queue.Tidy { mask, events := q.events ++ [event] } where
  count := by
    rw [List.length_append, List.length_singleton]
    omega
  length other hother := by
    rcases List.mem_append.mp hother with hold | hnew
    · exact h.length other hold
    · exact List.mem_singleton.mp hnew ▸ hlength
  wd other hother := by
    rcases List.mem_append.mp hother with hold | hnew
    · exact h.wd other hold
    · exact List.mem_singleton.mp hnew ▸ hwd
  last := List.pairwise_append.mpr ⟨h.last, List.pairwise_singleton _ _,
    fun a ha _ _ => h.plain hopen a ha⟩
  closed other hother hignored := by
    rcases List.mem_append.mp hother with hold | hnew
    · rw [h.plain hopen other hold] at hignored
      cases hignored
    · exact hclosed (List.mem_singleton.mp hnew ▸ hignored)

theorem Queue.Tidy.push (h : q.Tidy) {kind : BitVec 32} (hkind : has kind IN_IGNORED = false)
    (cookie : BitVec 32) (name : Bytes) : (q.push kind cookie name).Tidy := by
  unfold Queue.push
  split
  · exact h
  · next hsubscribed =>
    have hopen : q.mask ≠ 0 := fun hzero => hsubscribed (.inl hzero)
    split
    · split
      · next hfull =>
        exact h.append hopen (by omega) (length_encodeEvent_lt _ _ _ _) (.inr rfl)
          fun hignored => by
            have hfalse : isIgnored overflowEvent = true := hignored
            rw [isIgnored_overflowEvent] at hfalse
            cases hfalse
      · exact h
    · next hroom =>
      have hplain : isIgnored
          (encodeEvent 0 (kind &&& (q.mask ||| IN_ISDIR)) cookie name) = false := by
        rw [isIgnored_encodeEvent]
        exact has_and hkind
      -- What the event leaves, before the watch for one event is closed.
      have hpushed : ∀ pushed : Queue, pushed.Tidy → pushed.mask = q.mask →
          pushed.events.length < 4097 → pushed.fired.Tidy := by
        intro pushed htidy hmask hless
        unfold Queue.fired
        split
        · exact htidy.append (hmask ▸ hopen) hless (length_encodeEvent_lt _ _ _ _)
            (.inl (take_encodeEvent 0 _ _ _)) fun _ => rfl
        · exact htidy
      dsimp only
      split
      · exact hpushed q h rfl (by omega)
      refine hpushed _ (h.append hopen (by omega) (length_encodeEvent_lt _ _ _ _)
        (.inl (take_encodeEvent 0 _ _ _)) fun hignored => ?_) rfl ?_
      · rw [hplain] at hignored
        cases hignored
      · rw [List.length_append, List.length_singleton]
        omega

theorem Queue.Tidy.observe (h : q.Tidy) (changes : List Change) : (q.observe changes).Tidy := by
  unfold Queue.observe
  induction changes generalizing q with
  | nil => exact h
  | cons c changes ih => exact ih (h.push c.plain c.cookie c.name)

/-- There is room for the end of the watch: the queue is closed, or its last places are
free. -/
def Queue.Ends (q : Queue) : Prop :=
  q.mask = 0 ∨ q.events.length < 4096 ∨ (q.events.length = 4096 ∧ has q.mask IN_DELETE_SELF = false)

theorem push_room (kind cookie : BitVec 32) (name : Bytes) (hroom : q.events.length < 4096) :
    (q.push kind cookie name).mask = 0 ∨ (q.push kind cookie name).events.length < 4097 := by
  have hfired : ∀ pushed : Queue, pushed.events.length < 4097 →
      pushed.fired.mask = 0 ∨ pushed.fired.events.length < 4097 := by
    intro pushed hless
    unfold Queue.fired
    split
    · exact .inl rfl
    · exact .inr hless
  unfold Queue.push
  split
  · exact .inr (by omega)
  split
  · omega
  refine hfired _ ?_
  split
  · omega
  · rw [List.length_append, List.length_singleton]
    omega

theorem Queue.Tidy.delete (h : q.Tidy) (hends : q.Ends) : q.delete.Tidy := by
  have hpushed : (q.push IN_DELETE_SELF 0 []).Tidy := h.push (by decide) 0 []
  unfold Queue.delete
  dsimp only
  split
  · next hopen =>
    refine hpushed.append hopen ?_ (length_encodeEvent_lt _ _ _ _)
      (.inl (take_encodeEvent 0 _ _ _)) fun _ => rfl
    rcases hends with hclosed | hroom | ⟨hfull, hmask⟩
    · have hsame : q.push IN_DELETE_SELF 0 [] = q := by
        rw [Queue.push, if_pos (.inl hclosed)]
      rw [hsame] at hopen
      exact absurd hclosed hopen
    · rcases push_room IN_DELETE_SELF 0 [] hroom with hzero | hless
      · exact absurd hzero hopen
      · exact hless
    have hsame : q.push IN_DELETE_SELF 0 [] = q := by
      rw [Queue.push, if_pos]
      refine .inr ?_
      have hall : has ((IN_DELETE_SELF &&& q.mask) &&& IN_ALL_EVENTS) (BitVec.allOnes 32) =
          false := by
        unfold has at hmask ⊢
        rw [bne_eq_false_iff_eq] at hmask ⊢
        rw [BitVec.and_comm IN_DELETE_SELF, hmask]
        decide
      unfold has at hall ⊢
      rwa [BitVec.and_allOnes] at hall
    rw [hsame]
    omega
  · exact hpushed

theorem tidy_setMask (h : q.Tidy) (hopen : q.mask ≠ 0) (mask : BitVec 32) : (q.setMask mask).Tidy :=
  { h with
    closed := fun event hevent hignored => by
      rw [h.plain hopen event hevent] at hignored
      cases hignored }

theorem tidy_empty (mask : BitVec 32) : Queue.Tidy ⟨mask, []⟩ where
  count := Nat.zero_le _
  length event hevent := by cases hevent
  wd event hevent := by cases hevent
  last := List.Pairwise.nil
  closed event hevent := by cases hevent

/-! ## The invariant -/

/-- An event that ended a watch has its descriptor, whose watch is gone or about to go. -/
def Ended (pending : List Int) (s : State) (event : Bytes) : Prop :=
  ∃ wd, 1 ≤ wd ∧ wd < s.next ∧ event.take 4 = wdBytes wd ∧ (s.watches[wd]? = none ∨
      wd ∈ pending ∧ ∃ watch, s.watches[wd]? = some watch ∧ watch.volume ≠ 0)

structure Core (pending : List Int) (w : Work) : Prop where
  next : 1 ≤ w.inst.next ∧ w.inst.next < 2 ^ 31
  watch : ForAll w.inst.watches fun wd watch =>
    1 ≤ wd ∧ wd < w.inst.next ∧ watch.path.Unicode ∧ (wd, watch.id) ∈ w.history.assigned
  watches : w.inst.watches.size ≤ 16384
  queue : w.inst.queue.length ≤ QUEUE_LIMIT + 1
  full : w.inst.queue.length = QUEUE_LIMIT + 1 → w.inst.queue.getLast? = some overflowEvent
  memory : ForAll w.memory fun _ q => q.Tidy
  order : w.history.queued = w.history.taken ++ w.inst.queue
  assigned : (w.history.assigned.map Prod.fst).Nodup ∧
    ∀ entry ∈ w.history.assigned, 1 ≤ entry.1 ∧ entry.1 < w.inst.next
  follows : w.history.queued.Pairwise Follows
  ended : ∀ event ∈ w.history.queued, isIgnored event = true → Ended pending w.inst event

/-- The queue with one event more. -/
def Work.append (w : Work) (event : Bytes) : Work :=
  { w with
    inst := { w.inst with queue := w.inst.queue ++ [event] }
    history := { w.history with queued := w.history.queued ++ [event] } }

theorem push_cases (w : Work) (event : Bytes) :
    (w.inst.queue.getLast? = some event ∧ w.push event = w) ∨
      (w.inst.queue.length < QUEUE_LIMIT ∧ w.push event = w.append event) ∨
      (w.inst.queue.length = QUEUE_LIMIT ∧ w.push event = w.append overflowEvent) ∨
      (QUEUE_LIMIT < w.inst.queue.length ∧ w.push event = w) := by
  have hsame : ∀ inst : State, inst = w.inst → { w with
        inst
        history :=
          { w.history with
            queued := w.history.queued ++ inst.queue.drop w.inst.queue.length } } = w := by
    rintro _ rfl
    rw [List.drop_length, List.append_nil]
  have happend : ∀ other : Bytes, { w with
        inst := { w.inst with queue := w.inst.queue ++ [other] }
        history :=
          { w.history with
            queued := w.history.queued ++
              (w.inst.queue ++ [other]).drop w.inst.queue.length } } = w.append other := by
    intro other
    rw [List.drop_left]
    rfl
  unfold Work.push State.push
  split
  · next hlast => exact .inl ⟨hlast, hsame _ rfl⟩
  split
  · next hroom => exact .inr (.inl ⟨hroom, happend event⟩)
  · split
    · next hfull => exact .inr (.inr (.inl ⟨hfull, happend overflowEvent⟩))
    · exact .inr (.inr (.inr ⟨by omega, hsame _ rfl⟩))

section Core

variable {pending : List Int} {w : Work} (h : Core pending w)

include h

theorem Core.inI32 {wd : Int} (hlow : 1 ≤ wd) (hhigh : wd < w.inst.next) : InI32 wd :=
  ⟨by omega, by have := h.next.2; omega⟩

variable {event : Bytes}

theorem Core.follows_of_watch {wd : Int} {watch : Watch} (hwatch : w.inst.watches[wd]? = some watch)
    (hpending : watch.volume = 0 ∨ wd ∉ pending) (hevent : event.take 4 = wdBytes wd) :
    ∀ a ∈ w.history.queued, Follows a event := by
  intro a ha hignored heq
  obtain ⟨other, hlow, hhigh, htake, hgone⟩ := h.ended a ha hignored
  obtain ⟨hwdlow, hwdhigh, -⟩ := h.watch wd watch hwatch
  rw [hevent, htake] at heq
  cases wdBytes_injective (h.inI32 hwdlow hwdhigh) (h.inI32 hlow hhigh) heq
  rcases hgone with hnone | ⟨hmem, old, hold, hvolume⟩
  · rw [hnone] at hwatch
    cases hwatch
  rw [hwatch] at hold
  cases hold
  rcases hpending with hzero | hnot
  · exact hvolume hzero
  · exact hnot hmem

theorem Core.follows_overflow : ∀ a ∈ w.history.queued, Follows a overflowEvent := by
  intro a ha hignored heq
  obtain ⟨wd, hlow, hhigh, htake, -⟩ := h.ended a ha hignored
  rw [overflowEvent, take_encodeEvent, htake] at heq
  have hsame := wdBytes_injective (by constructor <;> decide) (h.inI32 hlow hhigh) heq
  omega

theorem Core.append (hroom : w.inst.queue.length ≤ QUEUE_LIMIT)
    (hfull : w.inst.queue.length = QUEUE_LIMIT → event = overflowEvent)
    (hfollows : ∀ a ∈ w.history.queued, Follows a event)
    (hended : isIgnored event = true → Ended pending w.inst event) :
    Core pending (w.append event) :=
  { h with
    queue := by
      show (w.inst.queue ++ [event]).length ≤ QUEUE_LIMIT + 1
      rw [List.length_append, List.length_singleton]
      omega
    full := fun hlength => by
      show (w.inst.queue ++ [event]).getLast? = _
      replace hlength : (w.inst.queue ++ [event]).length = QUEUE_LIMIT + 1 := hlength
      rw [List.length_append, List.length_singleton] at hlength
      rw [List.getLast?_append_of_ne_nil _ (by simp)]
      exact congrArg some (hfull (by omega))
    order := by
      show w.history.queued ++ [event] = w.history.taken ++ (w.inst.queue ++ [event])
      rw [h.order, List.append_assoc]
    follows := List.pairwise_append.mpr ⟨h.follows, List.pairwise_singleton _ _,
      fun a ha b hb => List.mem_singleton.mp hb ▸ hfollows a ha⟩
    ended := fun other hother hignored => by
      rcases List.mem_append.mp hother with hold | hnew
      · exact h.ended other hold hignored
      · rw [List.mem_singleton.mp hnew] at hignored ⊢
        exact hended hignored }

theorem Core.push (hfollows : ∀ a ∈ w.history.queued, Follows a event)
    (hended : isIgnored event = true → Ended pending w.inst event) :
    Core pending (w.push event) := by
  have hplain : isIgnored overflowEvent = true → Ended pending w.inst overflowEvent := by
    intro hignored
    rw [isIgnored_overflowEvent] at hignored
    cases hignored
  rcases push_cases w event with ⟨-, heq⟩ | ⟨hroom, heq⟩ | ⟨hfull, heq⟩ | ⟨-, heq⟩
  · rwa [heq]
  · rw [heq]
    exact h.append hroom.le (fun hlength => absurd hlength hroom.ne) hfollows hended
  · rw [heq]
    exact h.append hfull.le (fun _ => rfl) h.follows_overflow hplain
  · rwa [heq]

end Core

theorem push_frame (w : Work) (event : Bytes) :
    (w.push event).inst.next = w.inst.next ∧ (w.push event).inst.watches = w.inst.watches ∧
      (w.push event).memory = w.memory ∧
      (w.push event).history.assigned = w.history.assigned := by
  unfold Work.push State.push
  split
  · exact ⟨rfl, rfl, rfl, rfl⟩
  · split
    · exact ⟨rfl, rfl, rfl, rfl⟩
    · split <;> exact ⟨rfl, rfl, rfl, rfl⟩

variable {w : Work}

theorem mem_push (h : a ∈ (w.push event).history.queued) :
    a ∈ w.history.queued ∨ a = event ∨ a = overflowEvent := by
  rcases push_cases w event with ⟨-, heq⟩ | ⟨-, heq⟩ | ⟨-, heq⟩ | ⟨-, heq⟩
  · exact .inl (heq ▸ h)
  · rw [heq] at h
    exact (List.mem_append.mp h).imp_right fun hnew => .inl (List.mem_singleton.mp hnew)
  · rw [heq] at h
    exact (List.mem_append.mp h).imp_right fun hnew => .inr (List.mem_singleton.mp hnew)
  · exact .inl (heq ▸ h)

variable {pending : List Int}

theorem Core.pushAll {events : List Bytes} (h : Core pending w) (horder : events.Pairwise Follows)
    (hfollows : ∀ a ∈ w.history.queued, ∀ event ∈ events, Follows a event)
    (hended : ∀ event ∈ events, isIgnored event = true → Ended pending w.inst event) :
    Core pending (w.pushAll events) := by
  unfold Work.pushAll
  induction events generalizing w with
  | nil => exact h
  | cons event events ih =>
    obtain ⟨hhead, horder⟩ := List.pairwise_cons.mp horder
    obtain ⟨hnext, hwatches, -, -⟩ := push_frame w event
    refine ih (h.push (fun a ha => hfollows a ha event List.mem_cons_self)
      (hended event List.mem_cons_self)) horder (fun a ha other hother => ?_)
      fun other hother hignored => ?_
    · rcases mem_push ha with hold | rfl | rfl
      · exact hfollows a hold other (List.mem_cons_of_mem event hother)
      · exact hhead other hother
      · exact follows_of_not_ignored isIgnored_overflowEvent other
    · have hother := hended other (List.mem_cons_of_mem event hother) hignored
      unfold Ended at hother ⊢
      rwa [hnext, hwatches]

variable {wd : Int}

theorem Core.eraseWatch (h : Core (wd :: pending) w) (watch : Watch)
    :
    Core pending
      { w with
        inst := { w.inst with watches := w.inst.watches.erase wd }
        retired := w.retired ++ [watch] } :=
  { h with
    watch := h.watch.erase wd
    watches := (ExtTreeMap.size_erase_le).trans h.watches
    ended := fun event hevent hignored => by
      obtain ⟨other, hlow, hhigh, htake, hgone⟩ := h.ended event hevent hignored
      refine ⟨other, hlow, hhigh, htake, ?_⟩
      show (w.inst.watches.erase wd)[other]? = none ∨ other ∈ pending ∧
        ∃ watch, (w.inst.watches.erase wd)[other]? = some watch ∧ watch.volume ≠ 0
      rw [get_erase]
      by_cases heq : wd = other
      · exact .inl (if_pos heq)
      rw [if_neg heq]
      rcases hgone with hnone | ⟨hmem, old, hold, hvolume⟩
      · exact .inl hnone
      · rcases List.mem_cons.mp hmem with hsame | hmem
        · exact absurd hsame.symm heq
        · exact .inr ⟨hmem, old, hold, hvolume⟩ }

theorem Core.endWatch (h : Core (wd :: pending) w) {watch : Watch}
    (hwatch : w.inst.watches[wd]? = some watch)
    (hfollows : ∀ a ∈ w.history.queued, Follows a (ignoredEvent wd)) :
    Core pending (Work.push
        { w with
          inst := { w.inst with watches := w.inst.watches.erase wd }
          retired := w.retired ++ [watch] } (ignoredEvent wd)) := by
  obtain ⟨hlow, hhigh, -⟩ := h.watch wd watch hwatch
  refine (h.eraseWatch watch).push hfollows fun _ => ?_
  refine ⟨wd, hlow, hhigh, take_encodeEvent wd _ _ _, .inl ?_⟩
  show (w.inst.watches.erase wd)[wd]? = none
  rw [get_erase, if_pos rfl]

theorem Core.dropWatch (h : Core (wd :: pending) w) : Core pending (w.dropWatch wd) := by
  unfold Work.dropWatch
  cases hwatch : w.inst.watches[wd]? with
  | none =>
    exact
      { h with
        ended := fun event hevent hignored => by
          obtain ⟨other, hlow, hhigh, htake, hgone⟩ := h.ended event hevent hignored
          refine ⟨other, hlow, hhigh, htake, ?_⟩
          rcases hgone with hnone | ⟨hmem, old, hold, hvolume⟩
          · exact .inl hnone
          · rcases List.mem_cons.mp hmem with rfl | hmem
            · exact .inl hwatch
            · exact .inr ⟨hmem, old, hold, hvolume⟩ }
  | some watch =>
    dsimp only
    split
    · next hnative =>
      exact h.endWatch hwatch (h.follows_of_watch hwatch (.inl hnative) (take_encodeEvent wd _ _ _))
    · exact h.eraseWatch watch

theorem Core.dropWatches (h : Core pending w) : Core [] (pending.foldl Work.dropWatch w) := by
  induction pending generalizing w with
  | nil => exact h
  | cons wd pending ih => exact ih h.dropWatch

end Kinakaze.Inotify
