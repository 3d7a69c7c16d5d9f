import Kinakaze.Unix.StreamReceive

/-!
# The end of a byte stream

A receive reports the end of the stream when it finds the direction closed: at once when the
counts say that all was received, or after it found the pipe empty.  Both tests lag behind a send
that is between its two sections, and the second one behind all that came after the pipe was found
empty.
-/

namespace Kinakaze.Unix.Stream

open Library

/-- A receive in its loop: before it looks at the pipe, or after it found the pipe empty. -/
inductive Phase
  | idle
  | checked (peek : Bool) (len : Nat)
  | empty (peek : Bool) (len : Nat)
  deriving DecidableEq

/-- A stream, the receive that has not found bytes yet, how many bytes the sends had reported when
the stream was shut down, and how many receives had returned data when one first found the end. -/
structure Flow where
  stream : Stream
  phase : Phase := .idle
  promised : Nat := 0
  ended : Option Nat := none

namespace Flow

/-- The steps of the stream itself, where `inspect` belongs to a receive in its loop, and the steps
of that loop.  A receive without data may be interrupted. -/
inductive Event
  | stream (event : Stream.Event)
  | begin (peek : Bool) (len : Nat)
  | inspect
  | recheck
  | interrupt
  | shutdown

/-- A receive returns 0. -/
def finish (f : Flow) : Flow :=
  { f with phase := .idle, ended := f.ended.or (some f.stream.deliveries.length) }

/-- A receive takes the lock and reads the queue.  One with an empty buffer returns no data. -/
def begin (f : Flow) (peek : Bool) (len : Nat) : Flow :=
  if f.phase = .idle ∧ f.stream.receiving = none ∧ len ≠ 0 then
    match f.stream.dir.queue.read with
    | .error _ => f
    | .ok q =>
      if q.readClosed || q.writeClosed && q.received == q.sent then f.finish
      else { f with phase := .checked peek len }
  else f

def inspect (f : Flow) : Flow :=
  match f.phase with
  | .checked peek len =>
    if f.stream.consumed < f.stream.bytes.length then
      { f with stream := f.stream.inspect peek len, phase := .idle }
    else { f with phase := .empty peek len }
  | _ => f

/-- The test after the pipe was found empty. -/
def recheck (f : Flow) : Flow :=
  match f.phase with
  | .empty peek len =>
    match f.stream.dir.queue.read with
    | .error _ => { f with phase := .idle }
    | .ok q =>
      if q.readClosed || q.writeClosed then f.finish
      else { f with phase := .checked peek len }
  | _ => f

def interrupt (f : Flow) : Flow :=
  match f.phase with
  | .empty _ _ => { f with phase := .idle }
  | _ => f

/-- `shutdown` with `SHUT_WR`. -/
def shutdown (f : Flow) : Flow :=
  let dir := f.stream.dir.section Queue.shutdownWrite
  { f with
    stream := { f.stream with dir }
    promised := if f.stream.dir.queue.writeClosed then f.promised else f.stream.dir.queue.sent }

def step (f : Flow) : Event → Flow
  | .stream (.inspect _ _) => f
  | .stream event => { f with stream := f.stream.step event }
  | .begin peek len => f.begin peek len
  | .inspect => f.inspect
  | .recheck => f.recheck
  | .interrupt => f.interrupt
  | .shutdown => f.shutdown

def start (reader writer : Bool) : Flow := { stream := Stream.start reader writer }

/-- No receive returns data after one found the end, and what the sends had reported before the
stream was shut down was received. -/
structure Final (f : Flow) : Prop where
  last : ∀ n, f.ended = some n → f.stream.deliveries.length = n
  whole : ∀ n, f.ended = some n → ∀ i < f.promised,
    ∃ d ∈ f.stream.consuming, d.start ≤ i ∧ i < d.stop

/-- The receive of this step would return 0. -/
def Ends (f : Flow) : Event → Prop
  | .begin _ _ => f.stream.dir.queue.readClosed = true ∨
      f.stream.dir.queue.writeClosed = true ∧ f.stream.dir.queue.received = f.stream.dir.queue.sent
  | .recheck => f.stream.dir.queue.readClosed = true ∨ f.stream.dir.queue.writeClosed = true
  | _ => False

/-- A receive finds the end only when no send is under way, and all bytes have left the pipe. -/
def InTime (f : Flow) (event : Event) : Prop :=
  f.Ends event → f.stream.dir.sending = none ∧ f.stream.consumed = f.stream.bytes.length

def Room (f : Flow) : Event → Prop
  | .stream event => Stream.Room f.stream event
  | _ => True

def Allowed (f : Flow) (event : Event) : Prop := f.Room event ∧ f.InTime event

/-! ## The invariant -/

/-- The state of a direction after its end was found. -/
structure AtEnd (f : Stream) : Prop where
  closed : f.dir.queue.readClosed = true ∨ f.dir.queue.writeClosed = true
  sending : f.dir.sending = none
  receiving : f.receiving = none
  empty : f.consumed = f.bytes.length

structure Inv (f : Flow) : Prop where
  stream : f.stream.Inv
  phase : f.phase ≠ .idle → f.stream.receiving = none
  promised : f.promised ≤ f.stream.bytes.length
  ended : ∀ n, f.ended = some n → AtEnd f.stream ∧ f.stream.deliveries.length = n

theorem publish_closed {q : Queue} (h : q.readClosed = true ∨ q.writeClosed = true) (m : Message) :
    ∃ e, q.publish m = .error e := by
  unfold Queue.publish
  split <;> exact ⟨_, rfl⟩

variable {f : Stream}

theorem AtEnd.step (h : AtEnd f) (hread : f.dir.queue.read = .ok f.dir.queue)
    (event : Stream.Event) : f.step event = f := by
  cases event with
  | send m hstream =>
    have hdir : f.dir.send m = f.dir := by
      obtain ⟨e, he⟩ := publish_closed h.closed m
      unfold Direction.send
      split
      · rfl
      · rw [hread]
        dsimp only
        rw [he]
    change f.send m = f
    unfold send
    dsimp only
    rw [hdir, if_neg fun hboth => by simp [h.sending] at hboth]
  | write count =>
    change f.write count = f
    rw [write, h.sending]
  | sent error quota =>
    change f.sent error quota = f
    rw [sent, h.sending]
  | inspect peek len =>
    refine if_neg fun hfound => ?_
    rw [h.empty] at hfound
    exact Nat.lt_irrefl _ hfound.2
  | limit =>
    change f.limit = f
    rw [limit, h.receiving]
  | take =>
    change f.take = f
    rw [take, h.receiving]
  | fail =>
    have hreceiving := h.receiving
    obtain ⟨dir, bytes, consumed, receiving, attached, pinned, deliveries⟩ := f
    dsimp only at hreceiving
    subst hreceiving
    rfl
  | commit =>
    change f.commit = f
    unfold commit
    rw [h.receiving]

/-! ## The steps -/

theorem section_shutdown {s : Direction} (hread : s.queue.read = .ok s.queue) :
    s.section Queue.shutdownWrite = s ∨
      s.section Queue.shutdownWrite = { s with queue := { s.queue with writeClosed := true } } := by
  have hbind : (Except.ok s.queue >>= Queue.shutdownWrite) = s.queue.shutdownWrite := rfl
  unfold Direction.section
  rw [hread, hbind]
  cases hwrite : s.queue.shutdownWrite with
  | error e => exact .inl rfl
  | ok next =>
    right
    rw [(write_ok hwrite).1]

theorem sent_le (h : f.Inv) : f.dir.queue.sent ≤ f.bytes.length := by
  cases hsending : f.dir.sending with
  | none => exact (h.idle hsending).ge
  | some s =>
    rw [h.sound.start s hsending]
    exact (h.sending s hsending).lower

theorem inv_shutdown (h : f.Inv) :
    Stream.Inv { f with dir := f.dir.section Queue.shutdownWrite } := by
  have hsound := sound_shutdownWrite h.sound
  rcases section_shutdown h.read with hsame | hclosed
  · rw [hsame]
    exact h
  rw [hclosed] at hsound ⊢
  exact
    { h with
      sound := hsound
      accepted := ⟨h.accepted.records, h.accepted.namespaces⟩
      sending := fun s hs => { h.sending s hs with }
      history := { h.history with } }

theorem bytes_step (f : Stream) (event : Stream.Event) :
    f.bytes.length ≤ (f.step event).bytes.length := by
  cases event with
  | send m hstream =>
    change _ ≤ (f.send m).bytes.length
    unfold send
    dsimp only
    split <;> exact le_rfl
  | write count =>
    change _ ≤ (f.write count).bytes.length
    unfold write
    split
    · exact le_rfl
    split
    · rw [List.length_append]
      exact Nat.le_add_right _ _
    · exact le_rfl
  | sent error quota =>
    change _ ≤ (f.sent error quota).bytes.length
    unfold sent
    split
    · exact le_rfl
    · split <;> exact le_rfl
  | inspect peek len =>
    change _ ≤ (f.inspect peek len).bytes.length
    unfold Stream.inspect
    split <;> exact le_rfl
  | limit =>
    change _ ≤ f.limit.bytes.length
    unfold limit
    split
    · split <;> exact le_rfl
    · exact le_rfl
  | take =>
    change _ ≤ f.take.bytes.length
    unfold take
    split <;> exact le_rfl
  | fail =>
    change _ ≤ f.fail.bytes.length
    unfold fail
    split <;> exact le_rfl
  | commit =>
    change _ ≤ f.commit.bytes.length
    unfold commit
    dsimp only
    split <;> exact le_rfl

theorem receiving_step (h : f.receiving = none) (event : Stream.Event)
    (hinspect : ∀ peek len, event ≠ .inspect peek len) : (f.step event).receiving = none := by
  cases event with
  | send m hstream =>
    change (f.send m).receiving = none
    unfold send
    dsimp only
    split <;> exact h
  | write count =>
    change (f.write count).receiving = none
    unfold write
    split
    · exact h
    · split <;> exact h
  | sent error quota =>
    change (f.sent error quota).receiving = none
    unfold sent
    split
    · exact h
    · split <;> exact h
  | inspect peek len => exact absurd rfl (hinspect peek len)
  | limit =>
    change f.limit.receiving = none
    rw [limit, h]
    exact h
  | take =>
    change f.take.receiving = none
    rw [take, h]
    exact h
  | fail =>
    change f.fail.receiving = none
    rw [fail, h]
  | commit =>
    change f.commit.receiving = none
    unfold commit
    rw [h]
    exact h

variable {f : Flow}

theorem Inv.stream_step (h : f.Inv) {event : Stream.Event} (hroom : Stream.Room f.stream event)
    (hinspect : ∀ peek len, event ≠ .inspect peek len) :
    Inv { f with stream := f.stream.step event } where
  stream := inv_step h.stream hroom
  phase hphase := receiving_step (h.phase hphase) event hinspect
  promised := h.promised.trans (bytes_step f.stream event)
  ended n hn := by
    have hend := h.ended n hn
    rw [hend.1.step h.stream.read event]
    exact hend

theorem Inv.finish (h : f.Inv) (hend : AtEnd f.stream) : f.finish.Inv where
  stream := h.stream
  phase hphase := absurd rfl hphase
  promised := h.promised
  ended n hn := by
    refine ⟨hend, ?_⟩
    unfold Flow.finish at hn
    cases hended : f.ended with
    | none =>
      rw [hended] at hn
      exact Option.some.inj hn
    | some m =>
      rw [hended] at hn
      rw [← Option.some.inj hn]
      exact (h.ended m hended).2

theorem inv_begin (h : f.Inv) (peek : Bool) (len : Nat)
    (hin : f.InTime (.begin peek len)) : (f.begin peek len).Inv := by
  unfold Flow.begin
  split
  · next hfree =>
    rw [h.stream.read]
    dsimp only
    split
    · next hclosed =>
      simp only [Bool.or_eq_true, Bool.and_eq_true, beq_iff_eq] at hclosed
      obtain ⟨hidle, hempty⟩ := hin hclosed
      exact h.finish ⟨hclosed.imp_right And.left, hidle, hfree.2.1, hempty⟩
    · exact ⟨h.stream, fun _ => hfree.2.1, h.promised, h.ended⟩
  · exact h

theorem inv_inspectLoop (h : f.Inv) : f.inspect.Inv := by
  unfold Flow.inspect
  split
  · next peek len hphase =>
    have hreceiving := h.phase (by rw [hphase]; nofun)
    split
    · next hfound =>
      refine ⟨inv_inspect h.stream peek len, fun hne => absurd rfl hne,
        h.promised.trans (bytes_step f.stream (.inspect peek len)), fun n hn => ?_⟩
      have hend := (h.ended n hn).1.empty
      rw [hend] at hfound
      exact absurd hfound (Nat.lt_irrefl _)
    · exact ⟨h.stream, fun _ => hreceiving, h.promised, h.ended⟩
  · exact h

theorem inv_recheck (h : f.Inv) (hin : f.InTime .recheck) : f.recheck.Inv := by
  unfold Flow.recheck
  split
  · next peek len hphase =>
    have hreceiving := h.phase (by rw [hphase]; nofun)
    rw [h.stream.read]
    dsimp only
    split
    · next hclosed =>
      rw [Bool.or_eq_true] at hclosed
      obtain ⟨hidle, hempty⟩ := hin hclosed
      exact h.finish ⟨hclosed, hidle, hreceiving, hempty⟩
    · exact ⟨h.stream, fun _ => hreceiving, h.promised, h.ended⟩
  · exact h

theorem inv_interrupt (h : f.Inv) : f.interrupt.Inv := by
  unfold Flow.interrupt
  split
  · exact ⟨h.stream, fun hne => absurd rfl hne, h.promised, h.ended⟩
  · exact h

theorem inv_close (h : f.Inv) : f.shutdown.Inv where
  stream := inv_shutdown h.stream
  phase := h.phase
  promised := by
    unfold Flow.shutdown
    dsimp only
    split
    · exact h.promised
    · exact sent_le h.stream
  ended n hn := by
    obtain ⟨hend, hlength⟩ := h.ended n hn
    refine ⟨?_, hlength⟩
    change AtEnd { f.stream with dir := f.stream.dir.section Queue.shutdownWrite }
    rcases section_shutdown h.stream.read with hsame | hclosed
    · rw [hsame]
      exact hend
    · rw [hclosed]
      exact ⟨.inr rfl, hend.sending, hend.receiving, hend.empty⟩

theorem flow_step (h : f.Inv) {event : Event} (hallowed : f.Allowed event) :
    (f.step event).Inv := by
  cases event with
  | stream event =>
    by_cases hinspect : ∃ peek len, event = .inspect peek len
    · obtain ⟨peek, len, rfl⟩ := hinspect
      exact h
    have hother : ∀ peek len, event ≠ .inspect peek len := fun peek len heq =>
      hinspect ⟨peek, len, heq⟩
    have hstep : f.step (.stream event) = { f with stream := f.stream.step event } := by
      cases event with
      | inspect peek len => exact absurd rfl (hother peek len)
      | _ => rfl
    rw [hstep]
    exact h.stream_step hallowed.1 hother
  | begin peek len => exact inv_begin h peek len hallowed.2
  | inspect => exact inv_inspectLoop h
  | recheck => exact inv_recheck h hallowed.2
  | interrupt => exact inv_interrupt h
  | shutdown => exact inv_close h

/-! ## Every run -/

theorem flow_start (reader writer : Bool) : (start reader writer).Inv where
  stream := inv_start reader writer
  phase hphase := absurd rfl hphase
  promised := Nat.zero_le _
  ended n hn := by cases hn

theorem Inv.final (h : f.Inv) : f.Final where
  last n hn := (h.ended n hn).2
  whole n hn i hi := by
    have hend := (h.ended n hn).1
    have hconsumed := h.stream.consumed
    rw [hend.receiving] at hconsumed
    have hreceived : f.stream.dir.queue.received = f.stream.bytes.length := by
      rw [← hend.empty, hconsumed]
      rfl
    have hin : i ∈ List.range f.stream.dir.queue.received := by
      rw [List.mem_range, hreceived]
      exact hi.trans_le h.promised
    rw [← h.stream.history.bytes] at hin
    obtain ⟨d, hd, hid⟩ := List.mem_flatMap.mp hin
    rw [List.mem_range'_1] at hid
    exact ⟨d, hd, hid.1, by omega⟩

/-- In every run whose receives find the end in time, it is the end. -/
theorem stream_end_final (reader writer : Bool) (events : List Event)
    (h : EveryStep step Allowed (start reader writer) events) :
    EveryState step Final (start reader writer) events := by
  have hinv : EveryState step Inv (start reader writer) events :=
    EveryState.of_preserved (fun f event hf hallowed => flow_step hf hallowed)
      (flow_start reader writer) h
  exact hinv.mono fun f hf => hf.final

theorem one_fits : 1 < 2 ^ 64 := by omega

/-- A message of one byte. -/
def oneByte : Message :=
  ⟨false, 1, one_fits, none, none, ⟨[(1, 1)], 0, 0⟩, root_captured⟩

/-- A byte is sent and received, and the stream is shut down. -/
def wholeEvents : List Event :=
  [.stream (.send oneByte rfl), .stream (.write 1), .stream (.sent 0 true), .shutdown,
    .begin false 1, .inspect, .stream .limit, .stream .take, .stream .commit, .begin false 1]

theorem wholeEvents_allowed : EveryStep step Allowed (start false false) wholeEvents := by
  have hsend : Stream.Room (start false false).stream (.send oneByte rfl) :=
    ⟨fun _ => ⟨fun hsome => (by cases hsome), nofun⟩,
      fun _ => ⟨by show 0 + 1 < 2 ^ 64; omega, nofun⟩⟩
  refine ⟨⟨hsend, nofun⟩, ⟨trivial, nofun⟩, ⟨trivial, nofun⟩, ⟨trivial, nofun⟩,
    ⟨trivial, ?_⟩, ⟨trivial, nofun⟩, ⟨trivial, nofun⟩, ⟨trivial, nofun⟩, ⟨trivial, nofun⟩,
    ⟨trivial, fun _ => by decide⟩, trivial⟩
  exact fun hends => absurd hends (by unfold Ends; decide)

/-- The end comes after the byte. -/
theorem stream_end_final_whole : EveryState step Final (start false false) wholeEvents :=
  stream_end_final false false wholeEvents wholeEvents_allowed

/-- The stream is shut down and ends while a send is between its sections. -/
def lateEvents : List Event :=
  [.stream (.send oneByte rfl), .shutdown, .begin false 1, .stream (.write 1),
    .stream (.sent 0 true), .begin false 1, .inspect, .stream .limit, .stream .take,
    .stream .commit]

/-- A byte is sent after a receive found the pipe empty, and before it finds the stream closed. -/
def lostEvents : List Event :=
  [.begin false 1, .inspect, .stream (.send oneByte rfl), .stream (.write 1),
    .stream (.sent 0 true), .shutdown, .recheck]

/-- A byte comes after the end, and a byte that was reported does not come before it. -/
theorem end_not_final : ((run step (start false false) lateEvents).ended = some 0 ∧
      (run step (start false false) lateEvents).stream.deliveries.length = 1) ∧
    ((run step (start false false) lostEvents).ended = some 0 ∧
      (run step (start false false) lostEvents).promised = 1 ∧
      (run step (start false false) lostEvents).stream.dir.queue.received = 0) := by
  decide

end Flow

end Kinakaze.Unix.Stream
