import Kinakaze.Library.Run
import Kinakaze.Netlink.Recording

/-!
# Subscribers of the journal

A subscriber copies new messages from the journal to its queue, and remembers how far it is.
When it has fallen behind, or its queue is full, it is told that messages were lost.
-/

namespace Kinakaze.Netlink

open Library

structure Datagram where
  bytes : Bytes
  source : Nat
  groups : Nat

/-- An endpoint that is in the group. -/
structure Subscriber where
  port : Nat
  filter : Option (Bytes → Option Nat)
  receiveBuffer : Nat
  cursor : Nat
  overflow : Bool := false
  queue : List Datagram := []
  -- The event that `prepare` opened, and whether its second look found nothing.
  event : Option Nat := none
  waits : Bool := false
  -- Where it began, where it last lost messages, what it received, and whether it was told.
  start : Nat := cursor
  base : Nat := cursor
  received : List Datagram := []
  untold : Bool := false

/-- The datagram that a message becomes, unless the subscriber sent it or filters it out. -/
def Subscriber.wanted (u : Subscriber) (m : Message) : Option Datagram :=
  if m.source = 0 ∨ u.port ≠ m.source then
    match u.filter with
    | none => some ⟨m.bytes, m.source, 1⟩
    | some run => (run m.bytes).map fun length => ⟨m.bytes.take length, m.source, 1⟩
  else none

def queued (queue : List Datagram) : Nat := (queue.map fun d => d.bytes.length).sum

/-- `refresh_journal_filtered`, up to the check of the queue's size. -/
def Subscriber.copy (u : Subscriber) (j : Journal) : Subscriber :=
  if u.cursor < j.sequence - j.messages.length ∨ u.cursor > j.sequence then
    { u with overflow := true, cursor := j.sequence, base := j.sequence, untold := true }
  else
    { u with
      queue := u.queue ++ (j.messages.filter fun m => decide (m.serial > u.cursor)).filterMap u.wanted
      cursor := j.sequence }

/-- The check of the queue's size. -/
def Subscriber.bound (u : Subscriber) : Subscriber :=
  if queued u.queue > min u.receiveBuffer MAX_BYTES then
    { u with queue := [], overflow := true, base := u.cursor, untold := true }
  else u

/-- `refresh_journal_filtered`. -/
def Subscriber.refresh (u : Subscriber) (j : Journal) : Subscriber :=
  if j.sequence = u.cursor then u else (u.copy j).bound

/-- One turn of `recvfrom`: `ENOBUFS` when messages were lost, or the next datagram. -/
def Subscriber.receive (u : Subscriber) (j : Journal) (peek : Bool) :
    Subscriber × Except Int (Option Datagram) :=
  let u := u.refresh j
  if u.overflow then ({ u with overflow := false, untold := false }, .error ENOBUFS)
  else if peek then (u, .ok u.queue.head?)
  else
    match u.queue with
    | [] => (u, .ok none)
    | d :: rest => ({ u with queue := rest, received := u.received ++ [d] }, .ok (some d))

/-- The first half of `prepare`: the event of the next commit is opened. -/
def Subscriber.enroll (u : Subscriber) (j : Journal) : Subscriber :=
  let u := u.refresh j
  { u with event := some (u.cursor + 1), waits := false }

/-- The second half of `prepare`.  The subscriber stays locked between the halves. -/
def Subscriber.recheck (u : Subscriber) (j : Journal) : Subscriber :=
  { u.refresh j with waits := decide (j.sequence = u.cursor) && u.event == some (u.cursor + 1) }

/-! ## The system -/

/-- The port of a socket that sends to the group: one that is bound. -/
structure Port where
  value : BitVec 32
  ne : value ≠ 0

structure Sys (Link : Type) where
  network : Network Link := {}
  subscribers : Nat → Option Subscriber := fun _ => none
  published : List Nat := []
  -- Every message that was ever recorded.
  log : List Message := []

inductive Op (Link : Type)
  | commit (links : List Link) (flags : Nat) (broadcast : Option (Port × Bytes))
  | subscribe (who port : Nat) (filter : Option (Bytes → Option Nat)) (receiveBuffer : Nat)
  | refresh (who : Nat)
  | receive (who : Nat) (peek : Bool)
  | enroll (who : Nat)
  | recheck (who : Nat)

section System

variable {Link : Type} [DecidableEq Link] (kinds : Links Link) (id : Nat)

def Sys.journal (s : Sys Link) : Journal := s.network.notifications

def Sys.update (s : Sys Link) (who : Nat) (f : Subscriber → Subscriber) : Sys Link :=
  { s with
    subscribers := fun k => if k = who then (s.subscribers who).map f else s.subscribers k }

/-- `transaction_with_notification`, when the body leaves these links and flags. -/
def Sys.commit (s : Sys Link) (links : List Link) (flags : Nat)
    (broadcast : Option (Port × Bytes)) : Sys Link :=
  let before := (s.network.loopbackFlags, s.network.links)
  let state := { s.network with links, loopbackFlags := flags }
  let broadcast := broadcast.map fun (port, bytes) => (port.value.toNat, bytes)
  match record kinds id before state broadcast, recorded kinds id before state broadcast with
  | .ok (network, name), .ok added =>
    { s with
      network
      published := name.toList ++ s.published
      log := s.log ++ number s.journal.sequence added }
  | _, _ => s

def Sys.step (s : Sys Link) : Op Link → Sys Link
  | .commit links flags broadcast => s.commit kinds id links flags broadcast
  | .subscribe who port filter receiveBuffer =>
    { s with
      subscribers := fun k =>
        if k = who then some { port, filter, receiveBuffer, cursor := s.journal.sequence }
        else s.subscribers k }
  | .refresh who => s.update who fun u => u.refresh s.journal
  | .receive who peek => s.update who fun u => (u.receive s.journal peek).1
  | .enroll who => s.update who fun u => u.enroll s.journal
  | .recheck who => s.update who fun u => u.recheck s.journal

end System

/-! ## What a subscriber is given -/

/-- The messages recorded after `low`, up to `high`. -/
def between (log : List Message) (low high : Nat) : List Message :=
  log.filter fun m => decide (low < m.serial) && decide (m.serial ≤ high)

/-- Since it began, or last was told of a loss, the subscriber was given every message it wants
once and in order; before that it was given some of them. -/
structure Faithful (log : List Message) (u : Subscriber) : Prop where
  start_le : u.start ≤ u.base
  base_le : u.base ≤ u.cursor
  cursor_le : u.cursor ≤ log.length
  given : ∃ earlier : List Message, earlier.Sublist (between log u.start u.base) ∧
    u.received ++ u.queue = (earlier ++ between log u.base u.cursor).filterMap u.wanted
  told : u.untold = true → u.overflow = true

/-- The event that the subscriber waits on has been published, or is that of the next commit. -/
def Awaited (s : Sys Link) (u : Subscriber) : Prop :=
  ∀ event, u.event = some event → event ∈ s.published ∨ event = s.journal.sequence + 1

/-! ## Parts of the log -/

section Log

variable {log : List Message} (h : log.map Message.serial = List.range' 1 log.length)

include h

variable {high low : Nat}

theorem serial_take {m : Message} (hm : m ∈ log.take high) : m.serial ≤ high := by
  have hin := List.mem_map_of_mem (f := Message.serial) hm
  rw [List.map_take, h, List.mem_take_iff_getElem] at hin
  obtain ⟨i, hi, heq⟩ := hin
  rw [List.getElem_range'] at heq
  omega

theorem serial_drop {m : Message} (hm : m ∈ log.drop low) : low < m.serial := by
  have hin := List.mem_map_of_mem (f := Message.serial) hm
  rw [List.map_drop, h, List.drop_range', List.mem_range'_1] at hin
  omega

theorem filter_after (low : Nat) :
    (log.filter fun m => decide (m.serial > low)) = log.drop low := by
  have hsplit := List.take_append_drop low log
  have hfilter := congrArg (List.filter fun m : Message => decide (m.serial > low)) hsplit
  rw [← hfilter, List.filter_append, List.filter_eq_nil_iff.mpr, List.nil_append,
    List.filter_eq_self.mpr]
  · intro m hm
    exact decide_eq_true (serial_drop h hm)
  intro m hm
  have hle := serial_take h hm
  simp only [decide_eq_true_eq, gt_iff_lt, Nat.not_lt]
  exact hle

theorem between_eq (low high : Nat) : between log low high = (log.drop low).take (high - low) := by
  have hfilter : between log low high =
      (log.drop low).filter fun m => decide (m.serial ≤ high) := by
    rw [← filter_after h, List.filter_filter]
    refine List.filter_congr fun m _ => ?_
    rw [Bool.and_comm]
  rw [hfilter]
  have hsplit := List.take_append_drop (high - low) (log.drop low)
  have hparts := congrArg (List.filter fun m : Message => decide (m.serial ≤ high)) hsplit
  rw [← hparts, List.filter_append, List.filter_eq_self.mpr, List.filter_eq_nil_iff.mpr,
    List.append_nil]
  · intro m hm
    rw [List.drop_drop] at hm
    have hlow := serial_drop h hm
    simp only [decide_eq_true_eq, Nat.not_le]
    omega
  · intro m hm
    rw [← List.drop_take] at hm
    exact decide_eq_true (serial_take h (List.mem_of_mem_drop hm))

theorem between_append {middle : Nat} (hlow : low ≤ middle) (hhigh : middle ≤ high) :
    between log low middle ++ between log middle high = between log low high := by
  rw [between_eq h, between_eq h, between_eq h]
  have hdrop : log.drop middle = (log.drop low).drop (middle - low) := by
    rw [List.drop_drop]
    congr 1
    omega
  rw [hdrop, show high - low = (middle - low) + (high - middle) by omega, List.take_add]

theorem between_self (low : Nat) : between log low low = [] := by
  rw [between_eq h, Nat.sub_self, List.take_zero]

theorem between_extend {more : List Message}
    (hmore : (log ++ more).map Message.serial = List.range' 1 (log ++ more).length)
    (hhigh : high ≤ log.length) : between (log ++ more) low high = between log low high := by
  have hlater : between more low high = [] := by
    rw [between, List.filter_eq_nil_iff]
    intro m hm
    have hdrop : m ∈ (log ++ more).drop log.length := by
      rw [List.drop_left' rfl]
      exact hm
    have hlow := serial_drop hmore hdrop
    simp only [Bool.and_eq_true, decide_eq_true_eq, not_and, Nat.not_le]
    omega
  have happend : between (log ++ more) low high = between log low high ++ between more low high :=
    List.filter_append _ _
  rw [happend, hlater, List.append_nil]

end Log

theorem Logged.after {j : Journal} {log : List Message} (h : Logged j log) {cursor : Nat}
    (hfirst : j.sequence - j.messages.length ≤ cursor) :
    (j.messages.filter fun m => decide (m.serial > cursor)) = between log cursor j.sequence := by
  obtain ⟨front, hfront⟩ := h.end
  have hlength : front.length = j.sequence - j.messages.length := by
    rw [← h.length, ← hfront, List.length_append, Nat.add_sub_cancel]
  have hold : (front.filter fun m => decide (m.serial > cursor)) = [] := by
    rw [List.filter_eq_nil_iff]
    intro m hm
    have htake : m ∈ log.take front.length := by
      rw [← hfront, List.take_left' rfl]
      exact hm
    have hle := serial_take h.serials htake
    simp only [decide_eq_true_eq, gt_iff_lt, Nat.not_lt]
    omega
  have hall : (log.filter fun m => decide (m.serial > cursor)) =
      j.messages.filter fun m => decide (m.serial > cursor) := by
    rw [← hfront, List.filter_append, hold, List.nil_append]
  rw [← hall, filter_after h.serials, between_eq h.serials, List.take_of_length_le]
  rw [List.length_drop, h.length]

/-! ## One subscriber -/

section Subscriber

variable {j : Journal} {log : List Message} (hlog : Logged j log) {u : Subscriber}

theorem refresh_cursor (u : Subscriber) (j : Journal) : (u.refresh j).cursor = j.sequence := by
  unfold Subscriber.refresh
  split
  · next heq => exact heq.symm
  have hcopy : (u.copy j).cursor = j.sequence := by
    unfold Subscriber.copy
    split <;> rfl
  unfold Subscriber.bound
  split <;> exact hcopy

theorem refresh_event (u : Subscriber) (j : Journal) : (u.refresh j).event = u.event := by
  unfold Subscriber.refresh Subscriber.bound Subscriber.copy
  split
  · rfl
  · split <;> split <;> rfl

theorem recheck_waits (u : Subscriber) (j : Journal) (h : (u.recheck j).waits = true) :
    (u.recheck j).event = some (j.sequence + 1) := by
  have hboth : decide (j.sequence = u.cursor) && u.event == some (u.cursor + 1) := h
  rw [Bool.and_eq_true, decide_eq_true_eq, beq_iff_eq] at hboth
  have hsame : (u.recheck j).event = u.event := refresh_event u j
  rw [hsame, hboth.2, hboth.1]

include hlog

theorem Faithful.copy (h : Faithful log u) : Faithful log (u.copy j) := by
  have hcursor : u.cursor ≤ j.sequence := hlog.length ▸ h.cursor_le
  obtain ⟨earlier, hearlier, hgiven⟩ := h.given
  unfold Subscriber.copy
  split
  · -- Messages were dropped: what was given so far is earlier now.
    refine ⟨h.start_le.trans (h.base_le.trans hcursor), Nat.le_refl _, Nat.le_of_eq hlog.length.symm,
      ⟨earlier ++ between log u.base u.cursor, ?_, ?_⟩, fun _ => rfl⟩
    · have hsub : (earlier ++ between log u.base u.cursor).Sublist
          (between log u.start u.base ++ between log u.base u.cursor) :=
        hearlier.append (.refl _)
      rw [between_append hlog.serials h.start_le h.base_le] at hsub
      refine hsub.trans ?_
      show (between log u.start u.cursor).Sublist (between log u.start j.sequence)
      rw [← between_append hlog.serials (h.start_le.trans h.base_le) hcursor]
      exact List.sublist_append_left _ _
    · show u.received ++ u.queue =
        (earlier ++ between log u.base u.cursor ++ between log j.sequence j.sequence).filterMap
          u.wanted
      rw [between_self hlog.serials, List.append_nil, hgiven]
  · next hkept =>
    rw [not_or, Nat.not_lt, Nat.not_lt] at hkept
    refine ⟨h.start_le, h.base_le.trans hcursor, Nat.le_of_eq hlog.length.symm,
      ⟨earlier, hearlier, ?_⟩, h.told⟩
    show u.received ++ (u.queue ++
        (j.messages.filter fun m => decide (m.serial > u.cursor)).filterMap u.wanted) =
      (earlier ++ between log u.base j.sequence).filterMap u.wanted
    rw [hlog.after hkept.1, ← List.append_assoc, hgiven, ← List.filterMap_append,
      List.append_assoc, between_append hlog.serials h.base_le hcursor]

theorem Faithful.bound (h : Faithful log u) : Faithful log u.bound := by
  obtain ⟨earlier, hearlier, hgiven⟩ := h.given
  unfold Subscriber.bound
  split
  · -- The queue is dropped: what was received is some of what was given.
    have hinit : u.received <+: (earlier ++ between log u.base u.cursor).filterMap u.wanted :=
      ⟨u.queue, hgiven⟩
    obtain ⟨kept, hkept, hreceived⟩ := List.prefix_filterMap_iff.mp hinit
    refine ⟨h.start_le.trans h.base_le, Nat.le_refl _, h.cursor_le, ⟨kept, ?_, ?_⟩, fun _ => rfl⟩
    · have hsub : (earlier ++ between log u.base u.cursor).Sublist
          (between log u.start u.base ++ between log u.base u.cursor) :=
        hearlier.append (.refl _)
      rw [between_append hlog.serials h.start_le h.base_le] at hsub
      exact hkept.sublist.trans hsub
    · show u.received ++ [] = (kept ++ between log u.cursor u.cursor).filterMap u.wanted
      rw [between_self hlog.serials, List.append_nil, List.append_nil, hreceived]
  · exact h

theorem Faithful.refresh (h : Faithful log u) : Faithful log (u.refresh j) := by
  unfold Subscriber.refresh
  split
  · exact h
  · exact (h.copy hlog).bound hlog

theorem Faithful.receive (h : Faithful log u) (peek : Bool) :
    Faithful log (u.receive j peek).1 := by
  have hfresh := h.refresh hlog
  obtain ⟨earlier, hearlier, hgiven⟩ := hfresh.given
  unfold Subscriber.receive
  dsimp only
  split
  · exact ⟨hfresh.start_le, hfresh.base_le, hfresh.cursor_le, ⟨earlier, hearlier, hgiven⟩, nofun⟩
  split
  · exact hfresh
  split
  · exact hfresh
  · next d rest hqueue =>
    refine ⟨hfresh.start_le, hfresh.base_le, hfresh.cursor_le, ⟨earlier, hearlier, ?_⟩, hfresh.told⟩
    show ((u.refresh j).received ++ [d]) ++ rest = _
    rw [List.append_assoc, List.singleton_append, ← hqueue]
    exact hgiven

theorem faithful_subscribe (port : Nat) (filter : Option (Bytes → Option Nat))
    (receiveBuffer : Nat) :
    Faithful log { port, filter, receiveBuffer, cursor := j.sequence } where
  start_le := Nat.le_refl _
  base_le := Nat.le_refl _
  cursor_le := Nat.le_of_eq hlog.length.symm
  given := by
    refine ⟨[], List.nil_sublist _, ?_⟩
    show [] = ([] ++ between log j.sequence j.sequence).filterMap _
    rw [between_self hlog.serials]
    rfl
  told := nofun

theorem Faithful.extend {more : List Message} {j' : Journal} (hmore : Logged j' (log ++ more))
    (h : Faithful log u) : Faithful (log ++ more) u := by
  obtain ⟨earlier, hearlier, hgiven⟩ := h.given
  have hbase : u.base ≤ log.length := h.base_le.trans h.cursor_le
  refine ⟨h.start_le, h.base_le, ?_, ⟨earlier, ?_, ?_⟩, h.told⟩
  · rw [List.length_append]
    exact h.cursor_le.trans (Nat.le_add_right _ _)
  · rw [between_extend hlog.serials hmore.serials hbase]
    exact hearlier
  · rw [between_extend hlog.serials hmore.serials h.cursor_le]
    exact hgiven

end Subscriber

/-! ## Runs -/

section Runs

variable {Link : Type} [DecidableEq Link] (kinds : Links Link) (id : Nat)

/-- The event that a subscriber waits on is published, or is that of any commit that comes next. -/
def NextPublishes (s : Sys Link) (u : Subscriber) : Prop :=
  ∀ event, u.event = some event → event ∈ s.published ∨
    ∀ (before : Nat × List Link) (state network : Network Link)
      (broadcast : Option (Nat × Bytes)) (name : Nat), state.notifications = s.journal →
      record kinds id before state broadcast = .ok (network, some name) → name = event

/-- What holds between any two steps. -/
structure Good (s : Sys Link) : Prop where
  logged : Logged s.journal s.log
  stored : ∃ bytes, s.journal.encode = .ok bytes ∧ Journal.decode bytes = .ok s.journal
  faithful : ∀ who u, s.subscribers who = some u → Faithful s.log u
  publishes : ∀ who u, s.subscribers who = some u → NextPublishes kinds id s u
  -- A second look that finds nothing leaves the event of the next commit.
  waits : ∀ who u, s.subscribers who = some u → (u.recheck s.journal).waits = true →
    (u.recheck s.journal).event = some (s.journal.sequence + 1)

structure Inv (s : Sys Link) : Prop where
  logged : Logged s.journal s.log
  faithful : ∀ who u, s.subscribers who = some u → Faithful s.log u
  awaited : ∀ who u, s.subscribers who = some u → Awaited s u

theorem inv_start : Inv ({} : Sys Link) := ⟨logged_start, nofun, nofun⟩

variable {s : Sys Link}

theorem Inv.update (h : Inv s) (who : Nat) {f : Subscriber → Subscriber}
    (hfaithful : ∀ u, Faithful s.log u → Faithful s.log (f u))
    (hawaited : ∀ u, Awaited s u → Awaited s (f u)) : Inv (s.update who f) := by
  have hget : ∀ k u, (s.update who f).subscribers k = some u →
      s.subscribers k = some u ∨ ∃ v, s.subscribers k = some v ∧ u = f v := by
    intro k u hu
    unfold Sys.update at hu
    dsimp only at hu
    split at hu
    · next heq =>
      obtain ⟨v, hv, rfl⟩ := Option.map_eq_some_iff.mp hu
      exact .inr ⟨v, heq ▸ hv, rfl⟩
    · exact .inl hu
  refine ⟨h.logged, fun k u hu => ?_, fun k u hu => ?_⟩
  · rcases hget k u hu with hu | ⟨v, hv, rfl⟩
    · exact h.faithful k u hu
    · exact hfaithful v (h.faithful k v hv)
  · rcases hget k u hu with hu | ⟨v, hv, rfl⟩
    · exact h.awaited k u hu
    · exact hawaited v (h.awaited k v hv)

theorem Inv.commit (h : Inv s) (links : List Link) (flags : Nat)
    (broadcast : Option (Port × Bytes)) : Inv (s.commit kinds id links flags broadcast) := by
  unfold Sys.commit
  dsimp only
  split
  · next network name added hrecord hrecorded =>
    obtain ⟨added', hadded', hpushes, hname⟩ := record_ok kinds hrecord
    rw [hrecorded] at hadded'
    cases hadded'
    have hports : ∀ m ∈ broadcast.map fun (m : Port × Bytes) => (m.1.value.toNat, m.2),
        0 < m.1 ∧ m.1 < 2 ^ 32 := by
      rintro m hm
      obtain ⟨⟨port, bytes⟩, -, rfl⟩ := Option.map_eq_some_iff.mp hm
      refine ⟨Nat.pos_of_ne_zero fun hzero => port.ne (BitVec.eq_of_toNat_eq hzero), ?_⟩
      exact port.value.isLt
    have hlogged := h.logged.pushes (recorded_recordable kinds hports hrecorded) hpushes
    refine ⟨hlogged, fun k u hu => (h.faithful k u hu).extend h.logged hlogged,
      fun k u hu event hevent => ?_⟩
    have hsequence := pushes_sequence hpushes
    rcases h.awaited k u hu event hevent with hpublished | hnext
    · exact .inl (List.mem_append_right _ hpublished)
    by_cases hempty : added = []
    · refine .inr ?_
      rw [hempty] at hsequence
      show event = network.notifications.sequence + 1
      rw [hsequence, hnext]
      rfl
    · refine .inl (List.mem_append_left _ ?_)
      rw [hname, if_neg hempty, hnext]
      exact List.mem_singleton.mpr rfl
  · exact h

theorem step_inv (h : Inv s) (op : Op Link) : Inv (s.step kinds id op) := by
  cases op with
  | commit links flags broadcast => exact h.commit kinds id links flags broadcast
  | subscribe who port filter receiveBuffer =>
    refine ⟨h.logged, fun k u hu => ?_, fun k u hu => ?_⟩
    · unfold Sys.step at hu
      dsimp only at hu
      split at hu
      · cases hu
        exact faithful_subscribe h.logged port filter receiveBuffer
      · exact h.faithful k u hu
    · unfold Sys.step at hu
      dsimp only at hu
      split at hu
      · cases hu
        exact nofun
      · exact h.awaited k u hu
  | refresh who =>
    refine h.update who (fun u hu => hu.refresh h.logged) fun u hu event hevent => ?_
    rw [refresh_event] at hevent
    exact hu event hevent
  | receive who peek =>
    refine h.update who (fun u hu => hu.receive h.logged peek) fun u hu event hevent => ?_
    have hsame : (u.receive s.journal peek).1.event = u.event := by
      rw [← refresh_event u s.journal]
      unfold Subscriber.receive
      dsimp only
      split
      · rfl
      · split
        · rfl
        · split <;> rfl
    exact hu event (hsame ▸ hevent)
  | enroll who =>
    refine h.update who (fun u hu => ?_) fun u _ event hevent => ?_
    · have hfresh := hu.refresh h.logged
      exact { hfresh with }
    have hcursor := refresh_cursor u s.journal
    have heq : some ((u.refresh s.journal).cursor + 1) = some event := hevent
    cases heq
    rw [hcursor]
    exact .inr rfl
  | recheck who =>
    refine h.update who (fun u hu => ?_) fun u hu event hevent => ?_
    · have hfresh := hu.refresh h.logged
      exact { hfresh with }
    · have hsame : (u.recheck s.journal).event = u.event := refresh_event u s.journal
      exact hu event (hsame ▸ hevent)

theorem Inv.good (h : Inv s) : Good kinds id s := by
  refine ⟨h.logged, decode_encode h.logged.sound, h.faithful, fun k u hu event hevent => ?_,
    fun _ u _ => recheck_waits u s.journal⟩
  rcases h.awaited k u hu event hevent with hpublished | hnext
  · exact .inl hpublished
  refine .inr fun before state network broadcast name hsame hrecord => ?_
  obtain ⟨added, -, -, hname⟩ := record_ok kinds hrecord
  split at hname
  · cases hname
  · cases hname
    rw [hsame, hnext]

/-- In every run of commits and subscribers, each subscriber is given what was recorded for it, once
and in order, or is told of the loss; the journal is read back; and the event that a subscriber
waits on is that of the next commit. -/
theorem notifications_faithful (ops : List (Op Link)) :
    EveryState (Sys.step kinds id) (Good kinds id) {} ops := by
  have hrun : EveryState (Sys.step kinds id) Inv {} ops :=
    EveryState.of_invariant (fun _ op h => step_inv kinds id h op) ops inv_start
  exact hrun.mono fun _ h => h.good kinds id

end Runs

end Kinakaze.Netlink
