import Kinakaze.Mqueue.Queue
import Kinakaze.Library.Run
import Mathlib.Data.List.Perm.Basic
import Mathlib.Data.List.TakeWhile

/-!
# The law of a message queue

The machine interleaves the changes of any number of processes on one queue, under any
answers of the liveness tests.  It keeps the history of what the callers were told: the
messages sent and received, each registration of a notification and how it ended, and
the delivered records that were taken or outlived their process.
-/

namespace Kinakaze.Mqueue

open Kinakaze.Library

/-! ## The machine -/

/-- How a registration ends: a send by `sender` of user `uid` consumes it, or it is
cancelled, by its process or by that process's death. -/
inductive Ending where
  | consumed (sender uid : Nat)
  | cancelled

structure History where
  sent : List Message
  received : List Message
  registered : List Notification
  ended : List (Notification × Ending)
  taken : List Notification
  expired : List Notification

structure System where
  state : Instance
  history : History

inductive Event where
  | send (live : Live) (m : Message) (sender uid : Nat)
  | receive (live : Live) (waiter : Nat × Nat) (length : Nat) (nonblock : Bool)
  | leave (live : Live) (waiter : Nat × Nat)
  | notify (live : Live) (pid : Nat) (value : Option Notification)
  | closed (live : Live) (pid : Nat)
  | getattr (live : Live)
  | takeNotification (live : Live) (pid signal : Nat)

/-- A new queue. -/
def System.initial (maxmsg msgsize uid : Nat) : System where
  state :=
    { queue := { maxmsg, msgsize, uid, messages := [], notify := none, receivers := [] }
      delivered := [] }
  history := ⟨[], [], [], [], [], []⟩

/-- The registration of `before`, if it is gone from `after`, ended as `ending`. -/
def endings (before after : Option Notification) (ending : Ending) : List (Notification × Ending) :=
  match before with
  | some n => if after.isSome then [] else [(n, ending)]
  | none => []

/-- What collecting adds to the history. -/
def History.collect (h : History) (live : Live) (i : Instance) : History :=
  { h with
    ended := h.ended ++ endings i.queue.notify (Mqueue.collect live i).queue.notify .cancelled
    expired := h.expired ++ i.delivered.filter fun n => !live.notifies n }

/-- The history after a change that succeeds, with what its caller learns. -/
def System.after {α : Type} (s : System) (live : Live) (op : Instance → Outcome α)
    (record : α → Instance → History → History) : System :=
  match change live op s.state with
  | .ok (a, state) => { state, history := record a state (s.history.collect live s.state) }
  | .error _ => s

def History.sends (h : History) (m : Message) (sender uid : Nat) :
    Option (Option Notification) → History
  | some (some n) =>
    { h with sent := h.sent ++ [m], ended := h.ended ++ [(n, .consumed sender uid)] }
  | some none => { h with sent := h.sent ++ [m] }
  | none => h

def step (s : System) : Event → System
  | .send live m sender uid =>
    if MAX_PRIORITY ≤ m.priority then s
    else s.after live (send m sender uid) fun out _ h => h.sends m sender uid out
  | .receive live waiter length nonblock =>
    s.after live (receive waiter length nonblock) fun out _ h =>
      { h with received := h.received ++ out.toList }
  | .leave live waiter => s.after live (leave waiter) fun _ _ h => h
  | .notify live pid (some n) =>
    s.after live (notify pid (some n)) fun _ _ h => { h with registered := h.registered ++ [n] }
  | .notify live pid none =>
    s.after live (notify pid none) fun _ state h =>
      { h with ended := h.ended ++
          endings (collect live s.state).queue.notify state.queue.notify .cancelled }
  | .closed live pid =>
    s.after live (closed pid) fun _ state h =>
      { h with ended := h.ended ++
          endings (collect live s.state).queue.notify state.queue.notify .cancelled }
  | .getattr live => s.after live getattr fun _ _ h => h
  | .takeNotification live pid signal =>
    s.after live (takeNotification pid signal) fun out _ h =>
      { h with taken := h.taken ++ out.toList }

/-! ## The law -/

/-- The record that a registration leaves when it ends. -/
def posted : Notification × Ending → Option Notification
  | (n, .consumed sender uid) => if n.method = 0 then some (n.deliveredBy sender uid) else none
  | (_, .cancelled) => none

/-- Greater priorities come first. -/
def Ordered (messages : List Message) : Prop :=
  messages.Pairwise fun a b => b.priority ≤ a.priority

def ofPriority (p : Nat) (messages : List Message) : List Message :=
  messages.filter fun m => m.priority == p

structure System.Law (s : System) : Prop where
  count : s.state.queue.messages.length ≤ s.state.queue.maxmsg
  size : ∀ m ∈ s.state.queue.messages, m.data.length ≤ s.state.queue.msgsize
  ordered : Ordered s.state.queue.messages
  fifo : ∀ p, ofPriority p s.history.received ++ ofPriority p s.state.queue.messages =
    ofPriority p s.history.sent
  registered : s.history.ended.map Prod.fst ++ s.state.queue.notify.toList = s.history.registered
  posted : (s.history.ended.filterMap posted).Perm
    (s.history.taken ++ s.history.expired ++ s.state.delivered)

/-! ## Insertion -/

theorem insertIdx_findIdx {α : Type} (p : α → Bool) (a : α) (l : List α) :
    l.insertIdx (l.findIdx p) a =
      (l.takeWhile fun b => !p b) ++ a :: l.dropWhile fun b => !p b := by
  induction l with
  | nil => rfl
  | cons b l ih =>
    cases hb : p b with
    | true => simp [List.findIdx_cons, hb]
    | false => simp [List.findIdx_cons, hb, ih]

theorem insertMessage_eq (m : Message) (messages : List Message) : insertMessage m messages =
      (messages.takeWhile fun other => !decide (other.priority < m.priority)) ++
        m :: messages.dropWhile fun other => !decide (other.priority < m.priority) :=
  insertIdx_findIdx _ m messages

variable {m : Message} {messages : List Message}

theorem mem_insertMessage {other : Message} :
    other ∈ insertMessage m messages ↔ other = m ∨ other ∈ messages := by
  have hsplit := List.takeWhile_append_dropWhile
    (p := fun other : Message => !decide (other.priority < m.priority)) (l := messages)
  rw [insertMessage_eq]
  conv_rhs => rw [← hsplit]
  simp only [List.mem_append, List.mem_cons]
  grind

theorem length_insertMessage (m : Message) (messages : List Message) :
    (insertMessage m messages).length = messages.length + 1 := by
  rw [insertMessage, List.length_insertIdx_of_le_length]
  exact List.findIdx_le_length

theorem Ordered.dropWhile_lt (h : Ordered messages) :
    ∀ other ∈ messages.dropWhile fun other => !decide (other.priority < m.priority),
      other.priority < m.priority := by
  induction messages with
  | nil => simp
  | cons first rest ih =>
    obtain ⟨hfirst, hrest⟩ := List.pairwise_cons.mp h
    by_cases hlt : first.priority < m.priority
    · rw [List.dropWhile_cons_of_neg (by simpa using hlt)]
      intro other hother
      rcases List.mem_cons.mp hother with rfl | hother
      · exact hlt
      · exact Nat.lt_of_le_of_lt (hfirst other hother) hlt
    · rw [List.dropWhile_cons_of_pos (by simpa using hlt)]
      exact ih hrest

theorem Ordered.insert (h : Ordered messages) (m : Message) :
    Ordered (insertMessage m messages) := by
  have hsplit := List.takeWhile_append_dropWhile
    (p := fun other : Message => !decide (other.priority < m.priority)) (l := messages)
  have hlow := h.dropWhile_lt (m := m)
  have hhigh : ∀ other ∈ messages.takeWhile fun other => !decide (other.priority < m.priority),
      m.priority ≤ other.priority := by
    intro other hother
    simpa using List.mem_takeWhile_imp hother
  rw [insertMessage_eq]
  unfold Ordered at *
  rw [← hsplit, List.pairwise_append] at h
  obtain ⟨hbefore, hafter, hacross⟩ := h
  rw [List.pairwise_append, List.pairwise_cons]
  refine ⟨hbefore, ⟨fun b hb => Nat.le_of_lt (hlow b hb), hafter⟩, fun a ha b hb => ?_⟩
  rcases List.mem_cons.mp hb with rfl | hb
  · exact hhigh a ha
  · exact hacross a ha b hb

theorem ofPriority_insert (h : Ordered messages)
    (p : Nat) : ofPriority p (insertMessage m messages) =
      ofPriority p messages ++ ofPriority p [m] := by
  have hsplit := List.takeWhile_append_dropWhile
    (p := fun other : Message => !decide (other.priority < m.priority)) (l := messages)
  have hlow := h.dropWhile_lt (m := m)
  rw [insertMessage_eq]
  conv_rhs => rw [← hsplit]
  unfold ofPriority
  simp only [List.filter_append, List.filter_cons, List.filter_nil]
  by_cases hp : m.priority = p
  · have hnone : (messages.dropWhile fun other => !decide (other.priority < m.priority)).filter
        (fun m => m.priority == p) = [] := by
      refine List.filter_eq_nil_iff.mpr fun other hother => ?_
      have hlt := hlow other hother
      simp only [beq_iff_eq]
      omega
    simp [hp ▸ hnone, hp]
  · simp [hp]

/-! ## Each change keeps the law -/

variable {s : System}

/-- The system after the collecting that begins a change. -/
def System.collected (s : System) (live : Live) : System :=
  { state := collect live s.state, history := s.history.collect live s.state }

theorem endings_spec (before after : Option Notification) (ending : Ending)
    (h : after = before ∨ after = none) :
    (endings before after ending).map Prod.fst ++ after.toList = before.toList := by
  cases before <;> rcases h with rfl | rfl <;> rfl

theorem endings_posted (before after : Option Notification) :
    (endings before after .cancelled).filterMap posted = [] := by
  cases before with
  | none => rfl
  | some n => cases after <;> rfl

theorem perm_filter_not {α : Type} (p : α → Bool) (l : List α) :
    l.Perm ((l.filter fun a => !p a) ++ l.filter p) :=
  ((List.filter_append_perm p l).symm).trans List.perm_append_comm

theorem System.Law.collected (h : s.Law) (live : Live) : (s.collected live).Law where
  count := h.count
  size := h.size
  ordered := h.ordered
  fifo := h.fifo
  registered := by
    have hnotify : (collect live s.state).queue.notify = s.state.queue.notify ∨
        (collect live s.state).queue.notify = none := by
      cases hn : s.state.queue.notify with
      | none => exact .inl (by simp [collect, hn])
      | some n =>
        cases hlive : live.notifies n
        · exact .inr (by simp [collect, hn, hlive])
        · exact .inl (by simp [collect, hn, hlive])
    simp only [System.collected, History.collect, List.map_append, List.append_assoc]
    rw [endings_spec _ _ _ hnotify]
    exact h.registered
  posted := by
    simp only [System.collected, History.collect, List.filterMap_append, endings_posted,
      List.append_nil]
    refine h.posted.trans ?_
    have hdelivered := perm_filter_not live.notifies s.state.delivered
    simp only [collect, List.append_assoc]
    exact List.Perm.append_left _ (List.Perm.append_left _ hdelivered)

variable {live : Live}

theorem System.Law.after {α : Type} (h : s.Law) {op : Instance → Outcome α}
    {record : α → Instance → History → History}
    (hop : ∀ a state, op (s.collected live).state = .ok (a, state) →
      System.Law { state, history := record a state (s.collected live).history }) :
    (s.after live op record).Law := by
  unfold System.after change
  split
  · next a state hout => exact hop a state hout
  · exact h

theorem System.Law.receivers (h : s.Law) (receivers : List (Nat × Nat)) : System.Law
      { s with state := { s.state with queue := { s.state.queue with receivers } } } :=
  { h with }

variable {state : Instance} {sender uid length pid : Nat}

theorem System.Law.send (h : s.Law) {out : Option (Option Notification)}
    (hout : Mqueue.send m sender uid s.state = .ok (out, state)) :
    System.Law { state, history := s.history.sends m sender uid out } := by
  unfold Mqueue.send at hout
  split at hout
  · cases hout
  · next hsize =>
    split at hout
    · cases hout
      exact h
    · next hcount =>
      have hordered := h.ordered
      have hlength : (insertMessage m s.state.queue.messages).length ≤ s.state.queue.maxmsg := by
        rw [length_insertMessage]
        omega
      have hsizes : ∀ other ∈ insertMessage m s.state.queue.messages,
          other.data.length ≤ s.state.queue.msgsize := by
        intro other hother
        rcases mem_insertMessage.mp hother with rfl | hother
        · omega
        · exact h.size other hother
      have hfifo : ∀ p, ofPriority p s.history.received ++
          ofPriority p (insertMessage m s.state.queue.messages) =
            ofPriority p (s.history.sent ++ [m]) := by
        intro p
        have happend : ofPriority p (s.history.sent ++ [m]) =
            ofPriority p s.history.sent ++ ofPriority p [m] := List.filter_append _ _
        rw [ofPriority_insert hordered, happend, ← h.fifo, List.append_assoc]
      dsimp only at hout
      by_cases hempty : (s.state.queue.messages.isEmpty && s.state.queue.receivers.isEmpty) = true
      · rw [if_pos hempty, if_pos hempty] at hout
        cases hnotify : s.state.queue.notify with
        | none =>
          rw [hnotify] at hout
          cases hout
          exact ⟨hlength, hsizes, hordered.insert m, hfifo, by
            have hregistered := h.registered
            rw [hnotify] at hregistered
            exact hregistered, h.posted⟩
        | some n =>
          rw [hnotify] at hout
          have hregistered := h.registered
          rw [hnotify] at hregistered
          cases hmethod : n.method == 0 with
          | true =>
            simp only [Option.filter_some, hmethod, if_true] at hout
            cases hout
            refine ⟨hlength, hsizes, hordered.insert m, hfifo, ?_, ?_⟩
            · simpa [History.sends] using hregistered
            · have hzero : n.method = 0 := by simpa using hmethod
              simp only [History.sends, List.filterMap_append, List.filterMap_cons,
                List.filterMap_nil, Mqueue.posted, hzero, if_true]
              rw [← List.append_assoc]
              exact h.posted.append_right _
          | false =>
            simp only [Option.filter_some, hmethod, Bool.false_eq_true, if_false] at hout
            cases hout
            refine ⟨hlength, hsizes, hordered.insert m, hfifo, ?_, ?_⟩
            · simpa [History.sends] using hregistered
            · have hne : n.method ≠ 0 := by simpa using hmethod
              simp only [History.sends, List.filterMap_append, List.filterMap_cons,
                List.filterMap_nil, Mqueue.posted, hne, if_false, List.append_nil]
              exact h.posted
      · rw [if_neg hempty, if_neg hempty] at hout
        cases hout
        exact ⟨hlength, hsizes, hordered.insert m, hfifo, h.registered, h.posted⟩

variable {waiter : Nat × Nat}

theorem System.Law.receive (h : s.Law) {nonblock : Bool} {out : Option Message}
    (hout : Mqueue.receive waiter length nonblock s.state = .ok (out, state)) :
    System.Law
      { state, history := { s.history with received := s.history.received ++ out.toList } } := by
  unfold Mqueue.receive at hout
  split at hout
  · cases hout
  split at hout
  · next m rest hmessages =>
    cases hout
    have hcount := h.count
    have hordered := h.ordered
    rw [hmessages] at hcount hordered
    refine ⟨?_, fun other hother => h.size other ?_, hordered.tail, fun p => ?_, h.registered,
      h.posted⟩
    · simp only [List.length_cons] at hcount ⊢
      omega
    · rw [hmessages]
      exact List.mem_cons_of_mem m hother
    · rw [← h.fifo p, hmessages]
      simp [ofPriority, List.filter_cons]
      split <;> simp
  · cases hout
    have hkept := h.receivers (if (!nonblock && !s.state.queue.receivers.contains waiter) = true
      then s.state.queue.receivers ++ [waiter] else s.state.queue.receivers)
    simpa using hkept

theorem System.Law.register (h : s.Law) {n : Notification}
    (hout : Mqueue.notify pid (some n) s.state = .ok ((), state)) :
    System.Law
      { state, history := { s.history with registered := s.history.registered ++ [n] } } := by
  unfold Mqueue.notify at hout
  dsimp only at hout
  split at hout
  · cases hout
  split at hout
  · cases hout
  split at hout
  · cases hout
  · next hfree =>
    cases hout
    have hnone : s.state.queue.notify = none := by simpa using hfree
    refine ⟨h.count, h.size, h.ordered, h.fifo, ?_, h.posted⟩
    have hregistered := h.registered
    rw [hnone] at hregistered
    simpa using hregistered

theorem System.Law.cancel (h : s.Law) (hout : Mqueue.notify pid none s.state = .ok ((), state)) :
    System.Law
      { state
        history :=
          { s.history with
            ended := s.history.ended ++
              endings s.state.queue.notify state.queue.notify .cancelled } } := by
  cases hout
  refine ⟨h.count, h.size, h.ordered, h.fifo, ?_, ?_⟩
  · rw [← h.registered]
    simp only [List.map_append, List.append_assoc]
    rw [endings_spec]
    split
    · exact .inr rfl
    · exact .inl rfl
  · simp only [List.filterMap_append, endings_posted, List.append_nil]
    exact h.posted

theorem System.Law.take (h : s.Law) {signal : Nat} {out : Option Notification}
    (hout : Mqueue.takeNotification pid signal s.state = .ok (out, state)) :
    System.Law
      { state, history := { s.history with taken := s.history.taken ++ out.toList } } := by
  unfold Mqueue.takeNotification at hout
  split at hout
  · next at_ hat =>
    cases hout
    obtain ⟨hlt, -, -⟩ := List.findIdx?_eq_some_iff_getElem.mp hat
    refine ⟨h.count, h.size, h.ordered, h.fifo, h.registered, h.posted.trans ?_⟩
    have hperm : s.state.delivered.Perm
        (s.state.delivered[at_] :: s.state.delivered.eraseIdx at_) :=
      (List.getElem_cons_eraseIdx_perm hlt).symm
    simp only [List.getElem?_eq_getElem hlt, Option.toList_some, List.append_assoc]
    refine List.Perm.append_left _ ?_
    refine (List.Perm.append_left s.history.expired hperm).trans ?_
    exact List.perm_middle
  · cases hout
    simpa using h

theorem law_initial (maxmsg msgsize uid : Nat) : (System.initial maxmsg msgsize uid).Law where
  count := Nat.zero_le _
  size _ hm := by cases hm
  ordered := List.Pairwise.nil
  fifo _ := rfl
  registered := rfl
  posted := List.Perm.nil

theorem law_step (s : System) (event : Event) (h : s.Law) : (step s event).Law := by
  cases event with
  | send live m sender uid =>
    rw [step]
    split
    · exact h
    · exact h.after fun a state hout => (h.collected live).send hout
  | receive live waiter length nonblock =>
    rw [step]
    exact h.after fun a state hout => (h.collected live).receive hout
  | leave live waiter =>
    rw [step]
    refine h.after fun a state hout => ?_
    cases hout
    exact (h.collected live).receivers _
  | notify live pid value =>
    cases value with
    | some n =>
      rw [step]
      exact h.after fun a state hout => (h.collected live).register hout
    | none =>
      rw [step]
      exact h.after fun a state hout => (h.collected live).cancel hout
  | closed live pid =>
    rw [step]
    exact h.after fun a state hout => (h.collected live).cancel hout
  | getattr live =>
    rw [step]
    refine h.after fun a state hout => ?_
    cases hout
    exact h.collected live
  | takeNotification live pid signal =>
    rw [step]
    exact h.after fun a state hout => (h.collected live).take hout

/-! ## What a receive takes and a send consumes -/

theorem receive_takes (h : s.Law) {nonblock : Bool}
    (hout : change live (receive waiter length nonblock) s.state = .ok (some m, state)) :
    s.state.queue.messages = m :: state.queue.messages ∧
      ∀ other ∈ state.queue.messages, other.priority ≤ m.priority := by
  unfold change receive at hout
  split at hout
  · cases hout
  split at hout
  · next first rest hmessages =>
    cases hout
    have hmessages' : s.state.queue.messages = m :: rest := hmessages
    have hordered := h.ordered
    rw [hmessages'] at hordered
    exact ⟨hmessages', (List.pairwise_cons.mp hordered).1⟩
  · cases hout

/-- The queue is empty, and no live receiver waits. -/
def Idle (live : Live) (q : Queue) : Prop :=
  q.messages = [] ∧ ∀ w ∈ q.receivers, live.thread w.1 w.2 = false

/-- The registration stands, and its process lives. -/
def Stands (live : Live) (q : Queue) (n : Notification) : Prop :=
  q.notify = some n ∧ live.notifies n = true

theorem stands_iff {i : Instance} {n : Notification} :
    (collect live i).queue.notify = some n ↔ Stands live i.queue n := by
  unfold Stands
  cases hn : i.queue.notify with
  | none => simp [collect, hn]
  | some other =>
    simp only [collect, hn, Option.filter_some]
    constructor
    · intro h
      split at h
      · next hlive =>
        cases h
        exact ⟨rfl, hlive⟩
      · cases h
    · rintro ⟨hsame, hlive⟩
      cases hsame
      rw [if_pos hlive]

theorem idle_iff {i : Instance} :
    ((collect live i).queue.messages.isEmpty && (collect live i).queue.receivers.isEmpty) = true ↔
      Idle live i.queue := by
  simp [collect, Idle]

theorem send_consumes_iff {consumed : Option Notification} (i : Instance)
    (hout : change live (send m sender uid) i = .ok (some consumed, state)) (n : Notification) :
    (consumed = some n ↔ Idle live i.queue ∧ Stands live i.queue n) ∧
      (consumed = some n → state.queue.notify = none) := by
  unfold change send at hout
  split at hout
  · cases hout
  split at hout
  · cases hout
  dsimp only at hout
  by_cases hidle : Idle live i.queue
  · have hempty := idle_iff.mpr hidle
    rw [if_pos hempty, if_pos hempty] at hout
    cases hout
    rw [← stands_iff]
    exact ⟨⟨fun hsome => ⟨hidle, hsome⟩, fun hboth => hboth.2⟩, fun _ => rfl⟩
  · have hempty := mt idle_iff.mp hidle
    rw [if_neg hempty, if_neg hempty] at hout
    cases hout
    refine ⟨⟨fun hsome => (by cases hsome), fun hboth => absurd hboth.1 hidle⟩, fun hsome => ?_⟩
    cases hsome

def Ending.isConsumed : Ending → Bool
  | .consumed _ _ => true
  | .cancelled => false

/-- The registrations that sends have consumed. -/
def History.consumed (h : History) : List (Notification × Ending) :=
  h.ended.filter fun e => e.2.isConsumed

theorem endings_consumed (before after : Option Notification) :
    (endings before after .cancelled).filter (fun e => e.2.isConsumed) = [] := by
  cases before with
  | none => rfl
  | some n => cases after <;> rfl

theorem collected_consumed (live : Live) :
    (s.collected live).history.consumed = s.history.consumed := by
  simp only [History.consumed, System.collected, History.collect, List.filter_append,
    endings_consumed, List.append_nil]

theorem step_consumed (s : System) (event : Event) :
    (step s event).history.consumed = s.history.consumed ∨
      ∃ live m sender uid n, event = .send live m sender uid ∧ Idle live s.state.queue ∧
        Stands live s.state.queue n ∧
        (step s event).history.consumed = s.history.consumed ++ [(n, .consumed sender uid)] := by
  have hafter : ∀ {α : Type} (live : Live) (op : Instance → Outcome α)
      (record : α → Instance → History → History),
      (∀ a state, change live op s.state = .ok (a, state) →
        (record a state (s.collected live).history).consumed = s.history.consumed) →
      (s.after live op record).history.consumed = s.history.consumed := by
    intro α live op record h
    unfold System.after
    split
    · next a state hout => exact h a state hout
    · rfl
  have hcancel : ∀ (live : Live) (state : Instance),
      History.consumed { (s.collected live).history with
        ended := (s.collected live).history.ended ++
          endings (collect live s.state).queue.notify state.queue.notify .cancelled } =
        s.history.consumed := by
    intro live state
    rw [← collected_consumed live]
    simp only [History.consumed, List.filter_append, endings_consumed, List.append_nil]
  cases event with
  | send live m sender uid =>
    rw [step]
    split
    · exact .inl rfl
    unfold System.after
    split
    · next out state hout =>
      cases out with
      | none => exact .inl (collected_consumed live)
      | some consumed =>
        cases consumed with
        | none => exact .inl (collected_consumed live)
        | some n =>
          obtain ⟨hidle, hstands⟩ :=
            (send_consumes_iff s.state hout n).1.mp rfl
          refine .inr ⟨live, m, sender, uid, n, rfl, hidle, hstands, ?_⟩
          have hsends : ((s.collected live).history.sends m sender uid (some (some n))).consumed =
              (s.collected live).history.consumed ++ [(n, .consumed sender uid)] := by
            simp only [History.sends, History.consumed, List.filter_append]
            rfl
          rw [collected_consumed] at hsends
          exact hsends
    · exact .inl rfl
  | receive live waiter length nonblock =>
    exact .inl (hafter live _ _ fun _ _ _ => collected_consumed live)
  | leave live waiter => exact .inl (hafter live _ _ fun _ _ _ => collected_consumed live)
  | notify live pid value =>
    cases value with
    | some n => exact .inl (hafter live _ _ fun _ _ _ => collected_consumed live)
    | none => exact .inl (hafter live _ _ fun _ state _ => hcancel live state)
  | closed live pid => exact .inl (hafter live _ _ fun _ state _ => hcancel live state)
  | getattr live => exact .inl (hafter live _ _ fun _ _ _ => collected_consumed live)
  | takeNotification live pid signal =>
    exact .inl (hafter live _ _ fun _ _ _ => collected_consumed live)

/-- The law of the queue over all runs: what its state and its history are, what a
receive takes, and which sends consume the registration that stands. -/
theorem message_queue_law (maxmsg msgsize uid : Nat) (s : System)
    (hs : Reachable step (· = .initial maxmsg msgsize uid) s) :
    s.Law ∧
    (∀ live waiter length nonblock m state,
      change live (receive waiter length nonblock) s.state = .ok (some m, state) →
        s.state.queue.messages = m :: state.queue.messages ∧
          ∀ other ∈ state.queue.messages, other.priority ≤ m.priority) ∧
    (∀ live m sender uid consumed state,
      change live (send m sender uid) s.state = .ok (some consumed, state) →
        ∀ n, (consumed = some n ↔ Idle live s.state.queue ∧ Stands live s.state.queue n) ∧
          (consumed = some n → state.queue.notify = none)) ∧
    ∀ event, (step s event).history.consumed = s.history.consumed ∨
      ∃ live m sender uid n, event = .send live m sender uid ∧ Idle live s.state.queue ∧
        Stands live s.state.queue n ∧
        (step s event).history.consumed = s.history.consumed ++ [(n, .consumed sender uid)] := by
  have hlaw := hs.invariant step (fun s hs => hs ▸ law_initial maxmsg msgsize uid) law_step
  exact ⟨hlaw, fun _ _ _ _ _ _ hout => receive_takes hlaw hout,
    fun _ _ _ _ _ _ hout => send_consumes_iff s.state hout, step_consumed s⟩

/-- Two sends: the second finds a message and leaves the registration's end alone. -/
theorem message_queue_law_two_sends : (run step (.initial 10 8192 0)
      [.notify ⟨fun _ _ => true, fun _ _ => true⟩ 7 (some ⟨7, 70, 0, 10, 0, 0, 0⟩),
        .send ⟨fun _ _ => true, fun _ _ => true⟩ ⟨1, [1]⟩ 8 0,
        .send ⟨fun _ _ => true, fun _ _ => true⟩ ⟨5, [2]⟩ 8 0]).Law ∧
      (run step (.initial 10 8192 0)
        [.notify ⟨fun _ _ => true, fun _ _ => true⟩ 7 (some ⟨7, 70, 0, 10, 0, 0, 0⟩),
          .send ⟨fun _ _ => true, fun _ _ => true⟩ ⟨1, [1]⟩ 8 0,
          .send ⟨fun _ _ => true, fun _ _ => true⟩ ⟨5, [2]⟩ 8 0]).state.queue.messages =
        [⟨5, [2]⟩, ⟨1, [1]⟩] :=
  have hstart : Reachable step (· = System.initial 10 8192 0) (.initial 10 8192 0) :=
    .start rfl
  ⟨(message_queue_law 10 8192 0 _ (hstart.run step _)).1, by decide⟩

end Kinakaze.Mqueue
