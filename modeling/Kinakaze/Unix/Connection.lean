import Kinakaze.Library.Run
import Kinakaze.Unix.Published

/-!
# The calls on a connection

A connection has two directions with the same sections; no section touches both.  A
direction is its published queue and the send that holds the transmit lock, between its
two locked sections.  `Direction.Sound` is the invariant of every run; with the
counts that the reader accepts it makes each publication read back.
-/

namespace Kinakaze.Unix

open Library

structure Direction where
  queue : Queue := {}
  sending : Option Sending := none

/-- The locked sections of the calls.  `sent` ends the send that is under way. -/
inductive Event
  | send (m : Message)
  | sent (result : Except Int Nat) (quota : Bool)
  | recv (messageMode : Bool) (count : Nat)
  | peek
  | shutdownRead
  | shutdownWrite
  | setPasscred (writer enabled : Bool)

/-- A section that changes the queue and publishes it; a failure publishes nothing. -/
def Direction.section (s : Direction) (op : Queue → Except Int Queue) : Direction :=
  match s.queue.read >>= op with
  | .ok queue => { s with queue }
  | .error _ => s

/-- The first section of a send takes the transmit lock until the second.  An empty send
on a byte stream returns before it. -/
def Direction.send (s : Direction) (m : Message) : Direction :=
  if s.sending.isSome ∨ (m.len = 0 ∧ ¬ m.messageMode) then s
  else
    match s.queue.read with
    | .error _ => s
    | .ok q =>
      match q.publish m with
      | .error _ => s
      | .ok queue => ⟨queue, some ⟨m, q.sent, (q.sender m).isSome⟩⟩

/-- The second section; the pipe takes at most what it is offered. -/
def Direction.sent (s : Direction) (result : Except Int Nat) (quota : Bool) : Direction :=
  match s.sending with
  | none => s
  | some sending =>
    if sending.unpublished result then { s with sending := none }
    else
      { s.section fun q => q.commit sending (result.map (min sending.message.len)) quota with
        sending := none }

def step (s : Direction) : Event → Direction
  | .send m => s.send m
  | .sent result quota => s.sent result quota
  | .recv messageMode count => s.section fun q => q.receive messageMode count
  | .peek => s
  | .shutdownRead => s.section Queue.shutdownRead
  | .shutdownWrite => s.section Queue.shutdownWrite
  | .setPasscred writer enabled => s.section fun q => q.setPasscred writer enabled

/-! ## What the sections make of the ranges -/

variable {credentials : List CredentialRange} {range : CredentialRange}

theorem mem_attach {start stop : Nat} {sender : Sender}
    (h : range ∈ attach credentials start stop sender) :
    range ∈ credentials ∨ range.stop = stop ∧ range.sender = sender := by
  unfold attach at h
  split at h
  · next last _ =>
    split at h
    · next hlast =>
      rcases List.mem_append.mp h with hfront | hend
      · exact .inl (List.dropLast_subset _ hfront)
      · rw [List.mem_singleton.mp hend]
        exact .inr ⟨rfl, hlast.2⟩
    · rcases List.mem_append.mp h with hfront | hend
      · exact .inl hfront
      · rw [List.mem_singleton.mp hend]
        exact .inr ⟨rfl, rfl⟩
  · rcases List.mem_append.mp h with hfront | hend
    · exact .inl hfront
    · rw [List.mem_singleton.mp hend]
      exact .inr ⟨rfl, rfl⟩

theorem Ordered.append (h : Ordered credentials) (hrange : range.start < range.stop)
    (hbefore : ∀ other ∈ credentials, other.stop ≤ range.start) :
    Ordered (credentials ++ [range]) where
  nonempty other hother := by
    rcases List.mem_append.mp hother with hfront | hend
    · exact h.nonempty other hfront
    · rw [List.mem_singleton.mp hend]
      exact hrange
  sorted := List.pairwise_append.mpr ⟨h.sorted, List.pairwise_singleton _ _,
    fun other hother next hnext => List.mem_singleton.mp hnext ▸ hbefore other hother⟩

theorem Ordered.attach (h : Ordered credentials) {start stop : Nat} (hlt : start < stop)
    (hbefore : ∀ range ∈ credentials, range.stop ≤ start)
    (sender : Sender) : Ordered (attach credentials start stop sender) := by
  unfold Unix.attach
  split
  · next last hlast =>
    split
    · next heq =>
      have hmem := List.mem_of_getLast? hlast
      have hsplit : credentials = credentials.dropLast ++ [last] := by
        rw [List.dropLast_append_getLast?]
        exact hlast
      have hwhole : Ordered (credentials.dropLast ++ [last]) := hsplit ▸ h
      refine hwhole.prefix.append ?_ fun other hother => ?_
      · have hnonempty := h.nonempty last hmem
        have hstop := heq.1
        show last.start < stop
        omega
      · exact (List.pairwise_append.mp hwhole.sorted).2.2 other hother last
          (List.mem_singleton_self last)
    · exact h.append hlt hbefore
  · exact h.append hlt hbefore

theorem Ordered.filter (h : Ordered credentials)
    (p : CredentialRange → Bool) : Ordered (credentials.filter p) :=
  ⟨fun range hrange => h.nonempty range (List.mem_filter.mp hrange).1, h.sorted.filter p⟩

variable {q next : Queue}

theorem trim_ordered (h : Ordered q.credentials) (stop : Nat) :
    Ordered (q.trim stop).credentials where
  nonempty range hrange := by
    have hkept := (List.mem_filter.mp hrange).2
    rw [decide_eq_true_eq] at hkept
    exact hkept.1
  sorted := by
    refine List.Pairwise.filter _ (List.pairwise_map.mpr (h.sorted.imp fun {a b} hab => ?_))
    show min a.stop stop ≤ b.start
    omega

theorem mem_trim {stop : Nat} (h : range ∈ (q.trim stop).credentials) :
    ∃ old ∈ q.credentials, range = { old with stop := min old.stop stop } := by
  obtain ⟨old, hold, rfl⟩ := List.mem_map.mp (List.mem_filter.mp h).1
  exact ⟨old, hold, rfl⟩

/-! ## What a settled send leaves -/

theorem setLength_cases (token : BitVec 64) (sent : Nat) (records : List Record) :
    (∀ r ∈ records, r.token ≠ token) ∧ setLength token sent records = records ∨
      ∃ before old after, records = before ++ old :: after ∧ old.token = token ∧
        (∀ r ∈ before, r.token ≠ token) ∧
        setLength token sent records = before ++ { old with length := sent } :: after := by
  unfold setLength
  cases hupdate : updateFirst (fun r : Record => r.token == token)
      (fun r => { r with length := sent }) records with
  | none => exact .inl ⟨fun r hr => beq_eq_false_iff_ne.mp (updateFirst_eq_none.mp hupdate r hr), rfl⟩
  | some next =>
    obtain ⟨before, old, after, hrecords, hnext, hold, hbefore⟩ := updateFirst_split hupdate
    exact .inr ⟨before, old, after, hrecords, beq_iff_eq.mp hold,
      fun r hr => beq_eq_false_iff_ne.mp (hbefore r hr), hnext⟩

theorem mem_setLength {token : BitVec 64} {sent : Nat} {records : List Record} {r : Record}
    (h : r ∈ setLength token sent records) :
    ∃ old ∈ records, r = old ∨ r = { old with length := sent } := by
  obtain ⟨-, hset⟩ | ⟨before, old, after, rfl, -, -, hset⟩ := setLength_cases token sent records
  · exact ⟨r, hset ▸ h, .inl rfl⟩
  rw [hset] at h
  rcases List.mem_append.mp h with hbefore | hafter
  · exact ⟨r, List.mem_append_left _ hbefore, .inl rfl⟩
  · rcases List.mem_cons.mp hafter with rfl | hafter
    · exact ⟨old, by simp, .inr rfl⟩
    · exact ⟨r, by simp [hafter], .inl rfl⟩

theorem length_setLength (token : BitVec 64) (sent : Nat) (records : List Record) :
    ((setLength token sent records).flatMap Record.write).length =
      (records.flatMap Record.write).length := by
  obtain ⟨-, hset⟩ | ⟨before, old, after, rfl, -, -, hset⟩ := setLength_cases token sent records
  · rw [hset]
  · simp only [hset, List.flatMap_append, List.flatMap_cons, List.length_append,
      Record.length_write]

/-- Records that are some of the old ones, one of them with another length. -/
structure Kept (old new : List Record) : Prop where
  mem : ∀ r ∈ new, ∃ o ∈ old, ∃ length < 2 ^ 64, r = o ∨ r = { o with length }
  size : (new.flatMap Record.write).length ≤ (old.flatMap Record.write).length
  count : new.length ≤ old.length

theorem Kept.refl (records : List Record) : Kept records records :=
  ⟨fun r hr => ⟨r, hr, 0, by decide, .inl rfl⟩, le_rfl, le_rfl⟩

variable {old new : List Record}

theorem Kept.filter (h : Kept old new) (p : Record → Bool) : Kept old (new.filter p) :=
  ⟨fun r hr => h.mem r (List.mem_filter.mp hr).1, (length_flatMap_filter_le _ p new).trans h.size,
    (List.length_filter_le p new).trans h.count⟩

theorem Kept.setLength (token : BitVec 64) {sent : Nat} (hsent : sent < 2 ^ 64)
    (records : List Record) : Kept records (setLength token sent records) where
  mem r hr := by
    obtain ⟨old, hold, heq⟩ := mem_setLength hr
    exact ⟨old, hold, sent, hsent, heq⟩
  size := (length_setLength token sent records).le
  count := by
    obtain ⟨-, hset⟩ | ⟨before, old, after, rfl, -, -, hset⟩ := setLength_cases token sent records
    · rw [hset]
    · simp [hset]

/-- The records after `sent` bytes went into the pipe. -/
def Sending.records (s : Sending) (sent : Nat) (records : List Record) : List Record :=
  match s.message.record with
  | none => records
  | some record => setLength record.token sent records

theorem Kept.records {sent : Nat} (hsent : sent < 2 ^ 64) (s : Sending) (records : List Record) :
    Kept records (s.records sent records) := by
  unfold Sending.records
  split
  · exact Kept.refl records
  · exact Kept.setLength _ hsent records

theorem advanced_eq (q : Queue) (s : Sending) (n : Nat) :
    q.advanced s n = if q.sent + advance s.message.messageMode n < 2 ^ 64 then
        .ok { q with
          sent := q.sent + advance s.message.messageMode n
          records := s.records n q.records }
      else .error EIO := by
  unfold Queue.advanced checkedAdd
  split <;> rfl

theorem dropRecord_eq (q : Queue) (s : Sending) :
    ∃ p : Record → Bool, q.dropRecord s = { q with records := q.records.filter p } := by
  unfold Queue.dropRecord
  split
  · exact ⟨fun _ => true, by rw [List.filter_true]⟩
  · exact ⟨_, rfl⟩

theorem settle_ok (q : Queue) (s : Sending) (n : Nat) (quota : Bool) :
    q.settle s (.ok n) quota = (q.advanced s n >>= fun advanced =>
      let kept := if n > 0 ∨ s.message.messageMode then advanced else advanced.dropRecord s
      .ok (if s.hasCredentials then kept.trim kept.sent else kept)) := rfl

theorem settle_failed (q : Queue) (s : Sending) (e : Int) (quota : Bool) :
    q.settle s (.error e) quota = let blocked : Queue :=
        { q with writerBlocked := if e = EAGAIN then !quota else q.writerBlocked }
      .ok (if s.hasCredentials then (blocked.dropRecord s).trim s.start
        else blocked.dropRecord s) := by
  have hblocked : (if e = EAGAIN then ({ q with writerBlocked := !quota } : Queue) else q) =
      { q with writerBlocked := if e = EAGAIN then !quota else q.writerBlocked } := by
    split <;> rfl
  exact hblocked ▸ rfl

/-- Where the ranges of a send end. -/
def Sending.stop (s : Sending) : Except Int Nat → Nat → Nat
  | .ok _, sent => sent
  | .error _, _ => s.start

variable {result : Except Int Nat} {quota : Bool}

theorem settle_cases {s : Sending} (hresult : ∀ n, result = .ok n → n < 2 ^ 64)
    (h : q.settle s result quota = .ok next) :
    ∃ sent records blocked, Kept q.records records ∧ q.sent ≤ sent ∧
      (q.sent < 2 ^ 64 → sent < 2 ^ 64) ∧
      next = if s.hasCredentials then
          ({ q with sent, records, writerBlocked := blocked } : Queue).trim
            (s.stop result sent)
        else { q with sent, records, writerBlocked := blocked } := by
  cases result with
  | error e =>
    rw [settle_failed] at h
    obtain ⟨p, hdrop⟩ :=
      dropRecord_eq { q with writerBlocked := if e = EAGAIN then !quota else q.writerBlocked } s
    dsimp only at h
    rw [hdrop] at h
    cases h
    exact ⟨q.sent, _, _, (Kept.refl _).filter p, le_rfl, id, rfl⟩
  | ok n =>
    have hn := hresult n rfl
    rw [settle_ok, advanced_eq] at h
    split at h
    · next hfits =>
      have hle : q.sent ≤ q.sent + advance s.message.messageMode n := Nat.le_add_right _ _
      by_cases hkept : n > 0 ∨ s.message.messageMode = true
      · simp only [bind, Except.bind, if_pos hkept] at h
        cases h
        exact ⟨_, _, q.writerBlocked, Kept.records hn s q.records, hle, fun _ => hfits, rfl⟩
      obtain ⟨p, hdrop⟩ := dropRecord_eq
        { q with
          sent := q.sent + advance s.message.messageMode n
          records := s.records n q.records } s
      simp only [bind, Except.bind, if_neg hkept] at h
      rw [hdrop] at h
      cases h
      exact ⟨_, _, q.writerBlocked, (Kept.records hn s q.records).filter p, hle,
        fun _ => hfits, rfl⟩
    · cases h

theorem settle_error {s : Sending} {e : Int} (h : q.settle s result quota = .error e) :
    ∃ n, result = .ok n ∧ 2 ^ 64 ≤ q.sent + advance s.message.messageMode n := by
  cases result with
  | error e => cases h
  | ok n =>
    rw [settle_ok, advanced_eq] at h
    split at h
    · cases h
    · exact ⟨n, rfl, by omega⟩

/-! ## Sizes after a call -/

/-- A publication with no more in it takes no more bytes. -/
theorem length_encode_le (hrecords : (next.records.flatMap Record.write).length ≤
      (q.records.flatMap Record.write).length)
    (hcredentials : (next.credentials.flatMap CredentialRange.write).length ≤
      (q.credentials.flatMap CredentialRange.write).length)
    (hnil : q.credentials = [] → next.credentials = [])
    (hfilter : next.readerFilter = q.readerFilter)
    (hsnapshot : next.readerFilterSnapshot = q.readerFilterSnapshot)
    (hreader : next.readerPasscred = q.readerPasscred)
    (hwriter : next.writerPasscred = q.writerPasscred) : next.encode.length ≤ q.encode.length := by
  rw [next.length_encode, q.length_encode]
  have hlast : next.writeCredentials.length ≤ q.writeCredentials.length := by
    unfold Queue.writeCredentials
    rw [hfilter, hsnapshot, hreader, hwriter]
    by_cases hold : q.readerFilter ≠ 0 ∨ q.readerPasscred ∨ q.writerPasscred ∨ q.credentials ≠ []
    · rw [if_pos hold]
      split
      · simp only [List.length_append, length_numberBytes] at hcredentials ⊢
        omega
      · exact Nat.zero_le _
    have hnew : ¬ (q.readerFilter ≠ 0 ∨ q.readerPasscred ∨ q.writerPasscred ∨
        next.credentials ≠ []) := by
      intro hor
      refine hold ?_
      rcases hor with h | h | h | h
      · exact .inl h
      · exact .inr (.inl h)
      · exact .inr (.inr (.inl h))
      · exact .inr (.inr (.inr fun hq => h (hnil hq)))
    rw [if_neg hnew, if_neg hold]
  omega

theorem length_trim_le (q : Queue) (stop : Nat) :
    ((q.trim stop).credentials.flatMap CredentialRange.write).length ≤
      (q.credentials.flatMap CredentialRange.write).length := by
  refine (length_flatMap_filter_le _ _ _).trans (le_of_eq ?_)
  induction q.credentials with
  | nil => rfl
  | cons range rest ih =>
    rw [List.map_cons, List.flatMap_cons, List.flatMap_cons, List.length_append,
      List.length_append, ih, CredentialRange.length_write, CredentialRange.length_write]

theorem write_ok (h : q.write = .ok next) : next = q ∧ q.encode.length ≤ 16 * 1024 * 1024 := by
  unfold Queue.write at h
  split at h
  · cases h
  · cases h
    exact ⟨rfl, by omega⟩

/-! ## The invariant -/

/-- What holds after every section of every call. -/
structure Direction.Sound (s : Direction) : Prop where
  wellFormed : s.queue.WellFormed
  start : ∀ sending, s.sending = some sending → s.queue.sent = sending.start
  fits : ∀ sending, s.sending = some sending → sending.hasCredentials = true →
    sending.start + advance sending.message.messageMode sending.message.len < 2 ^ 64
  -- Ranges reach beyond the bytes sent only for the send that is under way.  A queue that
  -- cannot be read stays as it is.
  stop : s.queue.Accepted → (∀ sending, s.sending = some sending → sending.hasCredentials = false) →
    ∀ range ∈ s.queue.credentials, range.stop ≤ s.queue.sent

theorem sound_start : ({} : Direction).Sound where
  wellFormed :=
    { sent := by decide
      received := by decide
      record := nofun
      filter := fun _ => rfl
      snapshot := by decide
      ordered := ⟨fun range hrange => (by cases hrange), List.Pairwise.nil⟩
      stop := nofun
      captured := nofun
      size := by
        rw [Queue.length_encode]
        decide }
  start sending hsending := by cases hsending
  fits sending hsending := by cases hsending
  stop _ _ range hrange := by cases hrange

variable {op : Queue → Except Int Queue} {s : Direction}

theorem Direction.Sound.section (h : s.Sound)
    (hop : s.queue.Accepted → ∀ next, op s.queue = .ok next → (⟨next, s.sending⟩ : Direction).Sound) :
    (s.section op).Sound := by
  unfold Direction.section
  cases hread : s.queue.read with
  | error e => exact h
  | ok q =>
    cases read_ok h.wellFormed hread
    have haccepted := (read_eq_iff h.wellFormed).mp hread
    show Direction.Sound (match op s.queue with
      | .ok queue => { s with queue }
      | .error _ => s)
    cases hnext : op s.queue with
    | error e => exact h
    | ok next => exact hop haccepted next hnext

theorem setPasscred_ok {writer enabled : Bool} (hsize : q.encode.length ≤ 16 * 1024 * 1024)
    (h : q.setPasscred writer enabled = .ok next) :
    ∃ readerPasscred writerPasscred, next = { q with readerPasscred, writerPasscred } ∧
      next.encode.length ≤ 16 * 1024 * 1024 := by
  unfold Queue.setPasscred at h
  split at h <;> split at h
  · obtain ⟨rfl, hnext⟩ := write_ok h
    exact ⟨_, _, rfl, hnext⟩
  · cases h
    exact ⟨_, _, rfl, hsize⟩
  · obtain ⟨rfl, hnext⟩ := write_ok h
    exact ⟨_, _, rfl, hnext⟩
  · cases h
    exact ⟨_, _, rfl, hsize⟩

section Calls

variable {s : Direction} (h : s.Sound)

include h

theorem sound_receive (messageMode : Bool) (count : Nat) :
    (s.section fun q => q.receive messageMode count).Sound := by
  refine h.section fun haccepted next hnext => ?_
  unfold Queue.receive checkedAdd at hnext
  split at hnext
  · next hfits =>
    obtain ⟨rfl, hsize⟩ := write_ok hnext
    have hranges : ∀ range ∈ s.queue.credentials.filter
        fun range => decide (range.stop > s.queue.received + advance messageMode count),
        range ∈ s.queue.credentials := fun range hrange => (List.mem_filter.mp hrange).1
    exact
      { wellFormed :=
          { h.wellFormed with
            received := hfits
            record := fun r hr => h.wellFormed.record r (List.mem_filter.mp hr).1
            ordered := h.wellFormed.ordered.filter _
            stop := fun range hrange => h.wellFormed.stop range (hranges range hrange)
            captured := fun range hrange => h.wellFormed.captured range (hranges range hrange)
            size := hsize }
        start := h.start
        fits := h.fits
        stop := fun _ hnone range hrange => h.stop haccepted hnone range (hranges range hrange) }
  · cases hnext

theorem sound_shutdownRead : (s.section Queue.shutdownRead).Sound := by
  refine h.section fun _ next hnext => ?_
  obtain ⟨rfl, hsize⟩ := write_ok hnext
  exact
    { wellFormed :=
        { h.wellFormed with
          record := nofun
          ordered := ⟨fun range hrange => (by cases hrange), List.Pairwise.nil⟩
          stop := nofun
          captured := nofun
          size := hsize }
      start := h.start
      fits := h.fits
      stop := nofun }

theorem sound_shutdownWrite : (s.section Queue.shutdownWrite).Sound := by
  refine h.section fun haccepted next hnext => ?_
  obtain ⟨rfl, hsize⟩ := write_ok hnext
  exact
    { wellFormed := { h.wellFormed with size := hsize }
      start := h.start
      fits := h.fits
      stop := fun _ => h.stop haccepted }

theorem sound_setPasscred (writer enabled : Bool) :
    (s.section fun q => q.setPasscred writer enabled).Sound := by
  refine h.section fun haccepted next hnext => ?_
  obtain ⟨readerPasscred, writerPasscred, rfl, hsize⟩ :=
    setPasscred_ok h.wellFormed.size hnext
  exact
    { wellFormed := { h.wellFormed with size := hsize }
      start := h.start
      fits := h.fits
      stop := fun _ => h.stop haccepted }

end Calls

/-! ## Sending -/

/-- The record that a message adds at `offset`. -/
def Message.pushed (m : Message) (offset : Nat) : List Record :=
  m.record.toList.map fun r => { r with offset, length := m.len }

theorem pushRecord_eq (q : Queue) (m : Message) :
    q.pushRecord m = { q with records := q.records ++ m.pushed q.sent } := by
  unfold Queue.pushRecord Message.pushed
  split
  · next hnone => rw [hnone, Option.toList_none, List.map_nil, List.append_nil]
  · next r hsome => rw [hsome]; rfl

/-- The ranges after a message from `sender`, if it has one. -/
def Queue.attached (q : Queue) (m : Message) : List CredentialRange :=
  match q.sender m with
  | none => q.credentials
  | some sender => attach q.credentials q.sent (q.sent + advance m.messageMode m.len) sender

variable {m : Message}

theorem attachSender_ok (h : q.attachSender m = .ok next) :
    next = { q with credentials := q.attached m } ∧
      ((q.sender m).isSome = true → q.sent + advance m.messageMode m.len < 2 ^ 64) := by
  unfold Queue.attachSender at h
  unfold Queue.attached
  cases hsender : q.sender m with
  | none =>
    rw [hsender] at h
    cases h
    exact ⟨rfl, nofun⟩
  | some sender =>
    rw [hsender] at h
    unfold checkedAdd at h
    dsimp only at h
    split at h
    · next hfits =>
      cases h
      exact ⟨rfl, fun _ => hfits⟩
    · cases h

theorem publish_cases (h : q.publish m = .ok next) :
    m.rights ≤ 253 ∧ (next = q ∨ next.encode.length ≤ 16 * 1024 * 1024) ∧
      next = { q with records := q.records ++ m.pushed q.sent, credentials := q.attached m } ∧
      ((q.sender m).isSome = true → q.sent + advance m.messageMode m.len < 2 ^ 64) := by
  unfold Queue.publish at h
  split at h
  · cases h
  · next hrights =>
    split at h
    · cases h
    · cases hattached : q.attachSender m with
      | error e =>
        rw [hattached] at h
        cases h
      | ok attached =>
        obtain ⟨rfl, hfits⟩ := attachSender_ok hattached
        rw [hattached] at h
        simp only [bind, Except.bind, pushRecord_eq] at h
        refine ⟨by omega, ?_⟩
        split at h
        · obtain ⟨rfl, hsize⟩ := write_ok h
          exact ⟨.inr hsize, rfl, hfits⟩
        · next hnone =>
          rw [not_or, Bool.not_eq_true, Bool.not_eq_true, Option.isSome_eq_false_iff,
            Option.isSome_eq_false_iff, Option.isNone_iff_eq_none,
            Option.isNone_iff_eq_none] at hnone
          cases h
          refine ⟨.inl rfl, ?_, hfits⟩
          rw [Message.pushed, Queue.attached, hnone.1, hnone.2, Option.toList_none,
            List.map_nil, List.append_nil]

theorem sender_captured {sender : Sender} (h : q.sender m = some sender) : sender.Captured := by
  unfold Queue.sender at h
  split at h
  · next named hnamed =>
    cases h
    exact m.captured.2 _ hnamed
  · split at h
    · cases h
      exact m.captured.1
    · cases h

theorem pushed_record {offset : Nat} (hoffset : offset < 2 ^ 64) (hrights : m.rights ≤ 253) :
    ∀ r ∈ m.pushed offset, r.offset < 2 ^ 64 ∧ r.length < 2 ^ 64 ∧ r.fds.length ≤ 253 := by
  intro r hr
  obtain ⟨old, hold, rfl⟩ := List.mem_map.mp hr
  rw [Message.rights, Option.mem_toList.mp hold] at hrights
  exact ⟨hoffset, m.fits, hrights⟩

theorem advance_pos {messageMode : Bool} {len : Nat} (h : ¬ (len = 0 ∧ ¬ messageMode)) :
    0 < advance messageMode len := by
  unfold advance
  split
  · exact Nat.one_pos
  · next hmode => exact Nat.pos_of_ne_zero fun hzero => h ⟨hzero, hmode⟩

theorem attached_ordered (h : q.WellFormed) (hstop : ∀ range ∈ q.credentials, range.stop ≤ q.sent)
    (hpos : 0 < advance m.messageMode m.len) : Ordered (q.attached m) := by
  unfold Queue.attached
  split
  · exact h.ordered
  · exact h.ordered.attach (by omega) hstop _

theorem mem_attached (h : range ∈ q.attached m) : range ∈ q.credentials ∨
      range.stop = q.sent + advance m.messageMode m.len ∧ q.sender m = some range.sender := by
  unfold Queue.attached at h
  split at h
  · exact .inl h
  · next sender hsender =>
    rcases mem_attach h with hold | ⟨hstop, hsame⟩
    · exact .inl hold
    · exact .inr ⟨hstop, by rw [hsender, hsame]⟩

theorem sound_send (h : s.Sound) (m : Message) : (s.send m).Sound := by
  unfold Direction.send
  split
  · exact h
  · next hfree =>
    rw [not_or, Bool.not_eq_true, Option.isSome_eq_false_iff, Option.isNone_iff_eq_none] at hfree
    obtain ⟨hidle, hlen⟩ := hfree
    split
    · exact h
    · next q hread =>
      cases read_ok h.wellFormed hread
      have hstop := h.stop ((read_eq_iff h.wellFormed).mp hread) fun sending hsending => by
        rw [hidle] at hsending
        cases hsending
      split
      · exact h
      · next next hnext =>
        obtain ⟨hrights, hsize, hshape, hfits⟩ := publish_cases hnext
        have hrange : ∀ range ∈ s.queue.attached m,
            range.stop < 2 ^ 64 ∧ range.sender.Captured := by
          intro range hrange
          rcases mem_attached hrange with hold | ⟨heq, hsender⟩
          · exact ⟨h.wellFormed.stop range hold, h.wellFormed.captured range hold⟩
          · exact ⟨heq ▸ hfits (by rw [hsender]; rfl), sender_captured hsender⟩
        have hsize' : next.encode.length ≤ 16 * 1024 * 1024 := by
          rcases hsize with heq | hle
          · rw [heq]
            exact h.wellFormed.size
          · exact hle
        rw [hshape] at hsize' ⊢
        exact
          { wellFormed :=
              { h.wellFormed with
                record := fun r hr => (List.mem_append.mp hr).elim
                  (h.wellFormed.record r) (pushed_record h.wellFormed.sent hrights r)
                ordered := attached_ordered h.wellFormed hstop (advance_pos hlen)
                stop := fun range hmem => (hrange range hmem).1
                captured := fun range hmem => (hrange range hmem).2
                size := hsize' }
            start := fun sending hsending => by cases hsending; rfl
            fits := fun sending hsending hhas => by cases hsending; exact hfits hhas
            stop := fun _ hnone range hmem => by
              have hplain := hnone _ rfl
              rw [Option.isSome_eq_false_iff, Option.isNone_iff_eq_none] at hplain
              have hsame : s.queue.attached m = s.queue.credentials := by
                rw [Queue.attached, hplain]
              exact hstop range (hsame ▸ hmem) }

theorem advance_mono (messageMode : Bool) {n len : Nat} (h : n ≤ len) :
    advance messageMode n ≤ advance messageMode len := by
  unfold advance
  split
  · exact le_rfl
  · exact h

theorem Kept.record (h : Kept old new)
    (hold : ∀ r ∈ old, r.offset < 2 ^ 64 ∧ r.length < 2 ^ 64 ∧ r.fds.length ≤ 253) :
    ∀ r ∈ new, r.offset < 2 ^ 64 ∧ r.length < 2 ^ 64 ∧ r.fds.length ≤ 253 := by
  intro r hr
  obtain ⟨o, ho, length, hlength, rfl | rfl⟩ := h.mem r hr
  · exact hold r ho
  · exact ⟨(hold o ho).1, hlength, (hold o ho).2.2⟩

theorem settle_wellFormed (h : q.WellFormed) {s : Sending} (hresult : ∀ n, result = .ok n → n < 2 ^ 64)
    (hnext : q.settle s result quota = .ok next) : next.WellFormed := by
  obtain ⟨sent, records, blocked, hkept, -, hsent, rfl⟩ := settle_cases hresult hnext
  have hrecord := hkept.record h.record
  split
  · have hranges : ∀ range ∈ (({ q with sent, records, writerBlocked := blocked } : Queue).trim
        (s.stop result sent)).credentials, range.stop < 2 ^ 64 ∧ range.sender.Captured := by
      intro range hrange
      obtain ⟨old, hold, rfl⟩ := mem_trim hrange
      have hstop := h.stop old hold
      have hmin : min old.stop (s.stop result sent) ≤ old.stop := Nat.min_le_left _ _
      exact ⟨by dsimp only; omega, h.captured old hold⟩
    exact
      { h with
        sent := hsent h.sent
        record := hrecord
        ordered := trim_ordered h.ordered _
        stop := fun range hrange => (hranges range hrange).1
        captured := fun range hrange => (hranges range hrange).2
        size := le_trans (length_encode_le hkept.size (length_trim_le _ _) (fun hnil => by
            show List.filter _ (List.map _ q.credentials) = []
            rw [hnil]
            rfl) rfl rfl rfl rfl) h.size }
  · exact
      { h with
        sent := hsent h.sent
        record := hrecord
        size := le_trans (length_encode_le hkept.size le_rfl id rfl rfl rfl rfl) h.size }

theorem write_of_wellFormed (h : q.WellFormed) : q.write = .ok q := by
  rw [Queue.write, if_neg]
  have := h.size
  omega

theorem result_fits (m : Message) (result : Except Int Nat) :
    ∀ n, result.map (min m.len) = .ok n → n ≤ m.len := by
  intro n hn
  cases result with
  | error e => cases hn
  | ok k =>
    cases hn
    exact Nat.min_le_left _ _

section Settle

variable {s : Direction} (h : s.Sound) {sending : Sending} (hsending : s.sending = some sending)

include h hsending

theorem settle_total (result : Except Int Nat) (quota : Bool)
    (hhas : sending.hasCredentials = true) :
    ∃ next, s.queue.settle sending (result.map (min sending.message.len)) quota = .ok next := by
  cases hsettle : s.queue.settle sending (result.map (min sending.message.len)) quota with
  | error e =>
    obtain ⟨n, hn, hoverflow⟩ := settle_error hsettle
    have hfits := h.fits sending hsending hhas
    have hstart := h.start sending hsending
    have hadvance := advance_mono sending.message.messageMode
      (result_fits sending.message result n hn)
    omega
  | ok next => exact ⟨next, rfl⟩

theorem settle_stop (haccepted : s.queue.Accepted) (hresult : ∀ n, result = .ok n → n < 2 ^ 64)
    (hnext : s.queue.settle sending result quota = .ok next) :
    ∀ range ∈ next.credentials, range.stop ≤ next.sent := by
  obtain ⟨sent, records, blocked, -, hle, -, rfl⟩ := settle_cases hresult hnext
  intro range hrange
  cases hhas : sending.hasCredentials with
  | false =>
    rw [hhas] at hrange
    have hold := h.stop haccepted (fun other hother => by
      rw [hsending] at hother
      cases hother
      exact hhas) range hrange
    exact hold.trans hle
  | true =>
    rw [hhas] at hrange
    obtain ⟨old, -, rfl⟩ := mem_trim hrange
    have hstart := h.start sending hsending
    have hstop : sending.stop result sent ≤ sent := by
      cases result with
      | ok n => exact le_rfl
      | error e =>
        show sending.start ≤ sent
        omega
    exact (Nat.min_le_right _ _).trans hstop

end Settle

theorem sound_sent (h : s.Sound) (result : Except Int Nat) (quota : Bool) :
    (s.sent result quota).Sound := by
  unfold Direction.sent
  cases hsending : s.sending with
  | none => exact h
  | some sending =>
    have hfits : ∀ n, result.map (min sending.message.len) = .ok n → n < 2 ^ 64 := fun n hn =>
      (result_fits sending.message result n hn).trans_lt sending.message.fits
    -- A send without credentials leaves no range beyond the bytes sent.
    have hidle : sending.hasCredentials = false →
        ({ s with sending := none } : Direction).Sound := fun hhas =>
      { wellFormed := h.wellFormed
        start := fun _ h => by cases h
        fits := fun _ h => by cases h
        stop := fun haccepted _ => h.stop haccepted fun other hother => by
          rw [hsending] at hother
          cases hother
          exact hhas }
    dsimp only
    split
    · next hunpublished =>
      unfold Sending.unpublished at hunpublished
      rw [Bool.and_eq_true, Bool.and_eq_true, Bool.not_eq_true'] at hunpublished
      exact hidle hunpublished.1.2
    unfold Direction.section
    cases hread : s.queue.read with
    | error e =>
      have hnot : ¬ s.queue.Accepted := fun haccepted => by
        rw [read_of_accepted h.wellFormed haccepted] at hread
        cases hread
      exact
        { wellFormed := h.wellFormed
          start := fun _ h => by cases h
          fits := fun _ h => by cases h
          stop := fun haccepted => absurd haccepted hnot }
    | ok q =>
      cases read_ok h.wellFormed hread
      have haccepted := (read_eq_iff h.wellFormed).mp hread
      cases hsettle : s.queue.settle sending (result.map (min sending.message.len)) quota with
      | error e =>
        have hcommit : (Except.ok s.queue >>= fun q : Queue =>
            q.commit sending (result.map (min sending.message.len)) quota) = .error e := by
          show s.queue.settle sending _ quota >>= Queue.write = _
          rw [hsettle]
          rfl
        rw [hcommit]
        refine hidle ?_
        by_contra hhas
        obtain ⟨next, hnext⟩ := settle_total h hsending result quota (Bool.not_eq_false _ ▸ hhas)
        rw [hsettle] at hnext
        cases hnext
      | ok next =>
        have hwell := settle_wellFormed h.wellFormed hfits hsettle
        have hcommit : (Except.ok s.queue >>= fun q : Queue =>
            q.commit sending (result.map (min sending.message.len)) quota) = .ok next := by
          show s.queue.settle sending _ quota >>= Queue.write = _
          rw [hsettle]
          exact write_of_wellFormed hwell
        rw [hcommit]
        exact
          { wellFormed := hwell
            start := fun _ h => by cases h
            fits := fun _ h => by cases h
            stop := fun _ _ => settle_stop h hsending haccepted hfits hsettle }

theorem sound_step (h : s.Sound) (event : Event) : (step s event).Sound := by
  cases event with
  | send m => exact sound_send h m
  | sent result quota => exact sound_sent h result quota
  | recv messageMode count => exact sound_receive h messageMode count
  | peek => exact h
  | shutdownRead => exact sound_shutdownRead h
  | shutdownWrite => exact sound_shutdownWrite h
  | setPasscred writer enabled => exact sound_setPasscred h writer enabled

/-! ## Room for what a send adds -/

/-- The send goes on to publish. -/
def Direction.Publishes (s : Direction) (m : Message) : Prop :=
  s.sending = none ∧ ¬ (m.len = 0 ∧ ¬ m.messageMode) ∧ m.rights ≤ 253 ∧
    ¬ s.queue.readClosed ∧ ¬ s.queue.writeClosed

/-- A send that publishes rights finds fewer than 253 records, and one that publishes
credentials is from at most 32 namespaces deep. -/
def Room (s : Direction) : Event → Prop
  | .send m => s.Publishes m → (m.record.isSome = true → s.queue.records.length < 253) ∧
        ∀ sender, s.queue.sender m = some sender → sender.numbers.length ≤ 32
  | _ => True

theorem accepted_section (h : s.Sound) (haccepted : s.queue.Accepted)
    (hop : ∀ next, op s.queue = .ok next → next.Accepted) : (s.section op).queue.Accepted := by
  unfold Direction.section
  rw [read_of_accepted h.wellFormed haccepted]
  show (match op s.queue with
    | .ok queue => { s with queue }
    | .error _ => s : Direction).queue.Accepted
  cases hnext : op s.queue with
  | error e => exact haccepted
  | ok next => exact hop next hnext

theorem Queue.Accepted.mono (h : q.Accepted) (hrecords : next.records.length ≤ q.records.length)
    (hranges : ∀ range ∈ next.credentials, ∃ old ∈ q.credentials, range.sender = old.sender) :
    next.Accepted where
  records := hrecords.trans h.records
  namespaces range hrange := by
    obtain ⟨old, hold, hsame⟩ := hranges range hrange
    rw [hsame]
    exact h.namespaces old hold

theorem settle_accepted (h : q.Accepted) {s : Sending} (hresult : ∀ n, result = .ok n → n < 2 ^ 64)
    (hnext : q.settle s result quota = .ok next) : next.Accepted := by
  obtain ⟨sent, records, blocked, hkept, -, -, rfl⟩ := settle_cases hresult hnext
  split
  · refine h.mono hkept.count fun range hrange => ?_
    obtain ⟨old, hold, rfl⟩ := mem_trim hrange
    exact ⟨old, hold, rfl⟩
  · exact h.mono hkept.count fun range hrange => ⟨range, hrange, rfl⟩

theorem publish_accepted (h : s.queue.Accepted)
    (hroom : (m.record.isSome = true → s.queue.records.length < 253) ∧
      ∀ sender, s.queue.sender m = some sender → sender.numbers.length ≤ 32)
    (hnext : s.queue.publish m = .ok next) : next.Accepted := by
  obtain ⟨-, -, rfl, -⟩ := publish_cases hnext
  refine ⟨?_, fun range hrange => ?_⟩
  · show (s.queue.records ++ m.pushed s.queue.sent).length ≤ 253
    rw [List.length_append, Message.pushed, List.length_map]
    have hrecords := h.records
    cases hrecord : m.record with
    | none => simpa using hrecords
    | some r =>
      have hless := hroom.1 (by rw [hrecord]; rfl)
      rw [Option.toList_some, List.length_singleton]
      omega
  · rcases mem_attached hrange with hold | ⟨-, hsender⟩
    · exact h.namespaces range hold
    · exact hroom.2 _ hsender

theorem publishes_of_publish (hfree : ¬ (s.sending.isSome = true ∨ (m.len = 0 ∧ ¬ m.messageMode)))
    (hnext : s.queue.publish m = .ok next) : s.Publishes m := by
  rw [not_or, Bool.not_eq_true, Option.isSome_eq_false_iff, Option.isNone_iff_eq_none] at hfree
  unfold Queue.publish at hnext
  split at hnext
  · cases hnext
  · next hrights =>
    split at hnext
    · cases hnext
    · next hclosed =>
      rw [not_or] at hclosed
      exact ⟨hfree.1, hfree.2, by omega, hclosed⟩

theorem accepted_step (h : s.Sound) (haccepted : s.queue.Accepted)
    {event : Event} (hroom : Room s event) : (step s event).queue.Accepted := by
  cases event with
  | send m =>
    show (s.send m).queue.Accepted
    unfold Direction.send
    split
    · exact haccepted
    · next hfree =>
      rw [read_of_accepted h.wellFormed haccepted]
      dsimp only
      split
      · exact haccepted
      · next next hnext =>
        exact publish_accepted haccepted (hroom (publishes_of_publish hfree hnext)) hnext
  | sent result quota =>
    show (s.sent result quota).queue.Accepted
    unfold Direction.sent
    split
    · exact haccepted
    · next sending hsending =>
      split
      · exact haccepted
      refine accepted_section h haccepted fun next hnext => ?_
      unfold Queue.commit at hnext
      cases hsettle : s.queue.settle sending (result.map (min sending.message.len)) quota with
      | error e =>
        rw [hsettle] at hnext
        cases hnext
      | ok settled =>
        rw [hsettle] at hnext
        rw [(write_ok hnext).1]
        exact settle_accepted haccepted (fun n hn =>
          (result_fits sending.message result n hn).trans_lt sending.message.fits) hsettle
  | recv messageMode count =>
    refine accepted_section h haccepted fun next hnext => ?_
    unfold Queue.receive checkedAdd at hnext
    split at hnext
    · rw [(write_ok hnext).1]
      exact haccepted.mono (List.length_filter_le _ _)
        fun range hrange => ⟨range, (List.mem_filter.mp hrange).1, rfl⟩
    · cases hnext
  | peek => exact haccepted
  | shutdownRead =>
    refine accepted_section h haccepted fun next hnext => ?_
    rw [(write_ok hnext).1]
    exact haccepted.mono (Nat.zero_le _) nofun
  | shutdownWrite =>
    refine accepted_section h haccepted fun next hnext => ?_
    rw [(write_ok hnext).1]
    exact haccepted.mono le_rfl fun range hrange => ⟨range, hrange, rfl⟩
  | setPasscred writer enabled =>
    refine accepted_section h haccepted fun next hnext => ?_
    obtain ⟨readerPasscred, writerPasscred, rfl, -⟩ := setPasscred_ok h.wellFormed.size hnext
    exact haccepted.mono le_rfl fun range hrange => ⟨range, hrange, rfl⟩

/-- In a run whose sends find room, every publication reads back as what was published. -/
theorem reads_back_of_room (events : List Event) (h : EveryStep step Room {} events) :
    EveryState step (fun s => s.queue.read = .ok s.queue) {} events := by
  have hboth : EveryState step (fun s => s.Sound ∧ s.queue.Accepted) {} events :=
    EveryState.of_preserved
      (fun s event hs hroom => ⟨sound_step hs.1 event, accepted_step hs.1 hs.2 hroom⟩)
      ⟨sound_start, Nat.zero_le _, nofun⟩ h
  exact hboth.mono fun s hs => read_of_accepted hs.1.wellFormed hs.2

/-- A send of one byte with a descriptor, and its peer's receive. -/
theorem reads_back_of_room_one : EveryState step (fun s => s.queue.read = .ok s.queue) {}
      [.send ⟨false, 1, by omega, some ⟨0, 1, 0, 0, 0, 7, [⟨0, 0, 0, 0, 0, [], []⟩]⟩, none,
        ⟨[(1, 1)], 0, 0⟩,
        ⟨⟨by simp, by simp⟩, nofun⟩⟩] :=
  reads_back_of_room _ ⟨fun _ => ⟨fun _ => by decide, nofun⟩, trivial⟩

/-! ## A connection that is flooded with rights -/

section Flood

/-- The record of the descriptor that the send number `n` passes. -/
def floodRecord (n : Nat) : Record :=
  ⟨n, 1, 0, 0, 0, .ofNat 64 n, [⟨0, 0, 0, 0, 0, [], []⟩]⟩

/-- One byte with one descriptor. -/
def floodMessage (n : Nat) : Message where
  messageMode := false
  len := 1
  fits := by omega
  record := some (floodRecord n)
  credentials := none
  current := ⟨[(1, 1)], 0, 0⟩
  captured := ⟨⟨by simp, by simp⟩, nofun⟩

def floodEvents (n : Nat) : List Event :=
  (List.range n).flatMap fun k => [.send (floodMessage k), .sent (.ok 1) true]

def flooded (n : Nat) : Queue where
  sent := n
  records := (List.range n).map floodRecord

theorem floodEvents_succ (n : Nat) :
    floodEvents (n + 1) = floodEvents n ++ [.send (floodMessage n), .sent (.ok 1) true] := by
  rw [floodEvents, List.range_succ, List.flatMap_append]
  rfl

variable {n : Nat}

theorem flooded_accepted (h : n ≤ 253) : (flooded n).Accepted where
  records := by rwa [flooded, List.length_map, List.length_range]
  namespaces range hrange := by cases hrange

theorem flooded_size (h : n ≤ 254) : (flooded n).encode.length ≤ 16 * 1024 * 1024 := by
  have hrecords : ((flooded n).records.flatMap Record.write).length = n * 112 := by
    show (((List.range n).map floodRecord).flatMap Record.write).length = n * 112
    induction n with
    | zero => rfl
    | succ n ih =>
      rw [List.range_succ, List.map_append, List.flatMap_append, List.length_append,
        ih (by omega), List.map_singleton, List.flatMap_singleton, Record.length_write,
        floodRecord, List.flatMap_singleton, length_write]
      simp only [List.length_nil]
      omega
  rw [Queue.length_encode, hrecords]
  have hnone : (flooded n).writeCredentials = [] := by
    rw [Queue.writeCredentials, if_neg]
    simp [flooded]
  rw [hnone, List.length_nil]
  omega

theorem flood_publish (h : n ≤ 253) : (flooded n).publish (floodMessage n) =
      .ok { flooded n with records := (List.range (n + 1)).map floodRecord } := by
  have hsize := flooded_size (n := n + 1) (by omega)
  have hsame : ({ flooded n with
      records := (List.range (n + 1)).map floodRecord } : Queue).encode.length =
        (flooded (n + 1)).encode.length := by
    simp only [Queue.length_encode]
    rfl
  have hpush : (flooded n).pushRecord (floodMessage n) =
      { flooded n with records := (List.range (n + 1)).map floodRecord } := by
    rw [pushRecord_eq, List.range_succ, List.map_append]
    rfl
  show ((flooded n).pushRecord (floodMessage n)).write = _
  rw [hpush, Queue.write, if_neg (by omega)]

theorem setLength_same {token : BitVec 64} {sent : Nat} {records : List Record}
    (h : ∀ r ∈ records, r.length = sent) : setLength token sent records = records := by
  obtain ⟨-, hset⟩ | ⟨before, old, after, rfl, -, -, hset⟩ := setLength_cases token sent records
  · exact hset
  · rw [hset, ← h old (by simp)]

theorem flood_settle (h : n ≤ 253) :
    ({ flooded n with records := (List.range (n + 1)).map floodRecord } : Queue).settle
      ⟨floodMessage n, n, false⟩ (.ok 1) true = .ok (flooded (n + 1)) := by
  have hsame : (⟨floodMessage n, n, false⟩ : Sending).records 1
      ((List.range (n + 1)).map floodRecord) = (List.range (n + 1)).map floodRecord :=
    setLength_same fun r hr => by
      obtain ⟨k, -, rfl⟩ := List.mem_map.mp hr
      rfl
  have hfits : n + 1 < 2 ^ 64 := by omega
  rw [settle_ok, advanced_eq]
  show (if n + 1 < 2 ^ 64 then _ else _ : Except Int Queue) >>= _ = _
  rw [if_pos hfits, hsame]
  rfl

theorem sound_run (events : List Event) : (run step ({} : Direction) events).Sound :=
  have hstart : Reachable step (· = ({} : Direction)) {} := .start rfl
  Reachable.invariant step (P := Direction.Sound)
    (fun s (hs : s = ({} : Direction)) => hs ▸ sound_start)
    (fun _ event hs => sound_step hs event) (hstart.run step events)

/-- A send between its two sections. -/
def flooding (n : Nat) : Direction where
  queue := { flooded n with records := (List.range (n + 1)).map floodRecord }
  sending := some ⟨floodMessage n, n, false⟩

theorem flood_send (h : n ≤ 253) (hsound : (⟨flooded n, none⟩ : Direction).Sound) :
    step ⟨flooded n, none⟩ (.send (floodMessage n)) = flooding n := by
  have hfree : ¬ ((none : Option Sending).isSome = true ∨
      ((floodMessage n).len = 0 ∧ ¬ (floodMessage n).messageMode)) := by
    rintro (hsome | ⟨hzero, -⟩)
    · cases hsome
    · cases hzero
  show Direction.send ⟨flooded n, none⟩ (floodMessage n) = _
  rw [Direction.send, if_neg hfree, read_of_accepted hsound.wellFormed (flooded_accepted h)]
  dsimp only
  rw [flood_publish h]
  rfl

theorem flood_sent (h : n + 1 ≤ 253) (hsound : (flooding n).Sound) :
    step (flooding n) (.sent (.ok 1) true) = ⟨flooded (n + 1), none⟩ := by
  have haccepted : (flooding n).queue.Accepted := by
    refine ⟨?_, nofun⟩
    show ((List.range (n + 1)).map floodRecord).length ≤ 253
    rwa [List.length_map, List.length_range]
  have hsection : (flooding n).section (fun q => q.commit ⟨floodMessage n, n, false⟩ (.ok 1) true) =
      ⟨flooded (n + 1), some ⟨floodMessage n, n, false⟩⟩ := by
    have hcommit : (flooding n).queue.commit ⟨floodMessage n, n, false⟩ (.ok 1) true =
        .ok (flooded (n + 1)) := by
      have hsize := flooded_size (n := n + 1) (by omega)
      rw [Queue.commit]
      show Queue.settle { flooded n with records := (List.range (n + 1)).map floodRecord } _ _ _
        >>= Queue.write = _
      rw [flood_settle (by omega)]
      show (flooded (n + 1)).write = _
      rw [Queue.write, if_neg (by omega)]
    rw [Direction.section, read_of_accepted hsound.wellFormed haccepted]
    show (match (flooding n).queue.commit ⟨floodMessage n, n, false⟩ (.ok 1) true with
      | .ok queue => { flooding n with queue }
      | .error _ => flooding n : Direction) = _
    rw [hcommit]
    rfl
  show ({ (flooding n).section (fun q => q.commit ⟨floodMessage n, n, false⟩ (.ok 1) true) with
    sending := none } : Direction) = _
  rw [hsection]

theorem flood_run (h : n ≤ 253) : run step {} (floodEvents n) = ⟨flooded n, none⟩ := by
  induction n with
  | zero => rfl
  | succ n ih =>
    have hrun := ih (by omega)
    have hsound := sound_run (floodEvents n)
    rw [hrun] at hsound
    have hflooding : (flooding n).Sound :=
      flood_send (n := n) (by omega) hsound ▸ sound_step hsound _
    rw [floodEvents_succ, run_append, hrun, run_cons, run_cons, run_nil,
      flood_send (by omega) hsound, flood_sent h hflooding]

/-- The send that finds 253 records publishes a queue that cannot be read. -/
theorem flood_not_read :
    ¬ ∀ events : List Event, EveryState step (fun s => s.queue.read = .ok s.queue) {} events := by
  intro hall
  have hsound := sound_run (floodEvents 253)
  rw [flood_run le_rfl] at hsound
  have hlast := EveryState.last (hall (floodEvents 253 ++ [.send (floodMessage 253)]))
  rw [run_append, flood_run le_rfl, run_cons, run_nil, flood_send le_rfl hsound] at hlast
  have hflooding : (flooding 253).Sound :=
    flood_send (n := 253) le_rfl hsound ▸ sound_step hsound _
  have haccepted := (read_eq_iff hflooding.wellFormed).mp hlast
  have hrecords : ((List.range 254).map floodRecord).length ≤ 253 := haccepted.records
  rw [List.length_map, List.length_range] at hrecords
  omega

end Flood

end Kinakaze.Unix
