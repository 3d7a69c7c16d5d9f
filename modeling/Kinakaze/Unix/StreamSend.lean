import Kinakaze.Unix.Stream

/-!
# The sender's steps on a byte stream

* `Inv`: what holds between the steps of a send and of a receive.
* `inv_send`, `inv_write`, `inv_sent`: the two sections of a send and the pipe between them.
-/

namespace Kinakaze.Unix

open Library

namespace Stream

/-! ## Windows and ranges -/

variable {stop i : Nat} {a : Nat × BitVec 64}

theorem within_iff {start : Nat} : within start stop a = true ↔ start ≤ a.1 ∧ a.1 < stop := by
  rw [within, Bool.and_eq_true, decide_eq_true_eq, decide_eq_true_eq]

theorem Window.mono {attached next : List (Nat × BitVec 64)} {bytes : List Origin} {passcred : Bool}
    {start : Nat} (h : Window attached bytes passcred start stop) (hstop : stop ≤ bytes.length)
    (more : List Origin) (hnext : ∀ a ∈ next, a.1 < stop → a ∈ attached) :
    Window next (bytes ++ more) passcred start stop where
  extent a ha hwithin i b hai hi hb := by
    rw [List.getElem?_append_left (by omega)] at hb
    exact h.extent a (hnext a ha (within_iff.mp hwithin).2) hwithin i b hai hi hb
  same hpasscred := by
    obtain ⟨sender, hsender⟩ := h.same hpasscred
    refine ⟨sender, fun i b hstart hi hb => ?_⟩
    rw [List.getElem?_append_left (by omega)] at hb
    exact hsender i b hstart hi hb

theorem filter_within {attached : List (Nat × BitVec 64)}
    (hsorted : attached.Pairwise fun a b => a.1 < b.1) {start middle : Nat}
    (hstart : start ≤ middle) (hstop : middle ≤ stop) :
    attached.filter (within start stop) =
      attached.filter (within start middle) ++ attached.filter (within middle stop) := by
  induction attached with
  | nil => rfl
  | cons a rest ih =>
    obtain ⟨ha, hrest⟩ := List.pairwise_cons.mp hsorted
    by_cases hless : a.1 < middle
    · have hright : within middle stop a = false := by
        rw [Bool.eq_false_iff, Ne, within_iff]
        omega
      have hsame : within start stop a = within start middle a := by
        rw [Bool.eq_iff_iff, within_iff, within_iff]
        omega
      rw [List.filter_cons, List.filter_cons, List.filter_cons, hright, hsame, ih hrest]
      cases within start middle a <;> rfl
    have hnone : (a :: rest).filter (within start middle) = [] := by
      rw [List.filter_eq_nil_iff]
      intro b hb
      rw [within_iff]
      rcases List.mem_cons.mp hb with rfl | hb
      · omega
      · have := ha b hb
        omega
    have hsame : ∀ b ∈ a :: rest, within start stop b = within middle stop b := by
      intro b hb
      rw [Bool.eq_iff_iff, within_iff, within_iff]
      rcases List.mem_cons.mp hb with rfl | hb
      · omega
      · have := ha b hb
        omega
    rw [hnone, List.nil_append]
    exact List.filter_congr hsame

variable {credentials : List CredentialRange} {sender : Sender}

theorem covered_append {range : CredentialRange} : Covered (credentials ++ [range]) i sender ↔
      Covered credentials i sender ∨ range.start ≤ i ∧ i < range.stop ∧ range.sender = sender := by
  simp only [Covered, List.mem_append, List.mem_singleton, or_and_right, exists_or, exists_eq_left]

theorem covered_attach (h : Ordered credentials) {start : Nat} (hlt : start < stop) {x : Sender} :
    Covered (attach credentials start stop sender) i x ↔
      Covered credentials i x ∨ start ≤ i ∧ i < stop ∧ sender = x := by
  unfold attach
  split
  · next last hlast =>
    split
    · next heq =>
      have hnonempty := h.nonempty last (List.mem_of_getLast? hlast)
      have hsplit : credentials = credentials.dropLast ++ [last] := by
        rw [List.dropLast_append_getLast?]
        exact hlast
      obtain ⟨rfl, rfl⟩ := heq
      rw [covered_append]
      conv_rhs => rw [hsplit, covered_append]
      rw [or_assoc]
      refine or_congr_right ⟨?_, ?_⟩
      · rintro ⟨hi, hstop, rfl⟩
        by_cases hless : i < last.stop
        · exact .inl ⟨hi, hless, rfl⟩
        · exact .inr ⟨by omega, hstop, rfl⟩
      · rintro (⟨hi, hstop, rfl⟩ | ⟨hi, hstop, rfl⟩)
        · exact ⟨hi, show i < stop by omega, rfl⟩
        · exact ⟨show last.start ≤ i by omega, hstop, rfl⟩
    · exact covered_append
  · exact covered_append

theorem covered_trim {q : Queue} (hi : q.received ≤ i) :
    Covered (q.trim stop).credentials i sender ↔ Covered q.credentials i sender ∧ i < stop := by
  constructor
  · rintro ⟨range, hrange, hstart, hstop, hsame⟩
    obtain ⟨old, hold, rfl⟩ := mem_trim hrange
    have hmin : i < min old.stop stop := hstop
    exact ⟨⟨old, hold, hstart, by omega, hsame⟩, by omega⟩
  · rintro ⟨⟨old, hold, hstart, hstop, hsame⟩, hless⟩
    have hmin : i < min old.stop stop := by omega
    refine ⟨{ old with stop := min old.stop stop },
      List.mem_filter.mpr ⟨List.mem_map.mpr ⟨old, hold, rfl⟩, ?_⟩, hstart, hmin, hsame⟩
    rw [decide_eq_true_eq]
    exact ⟨show old.start < min old.stop stop by omega,
      show min old.stop stop > q.received by omega⟩

theorem covered_filter (hi : stop ≤ i) :
    Covered (credentials.filter fun range => decide (range.stop > stop)) i sender ↔
      Covered credentials i sender := by
  constructor
  · rintro ⟨range, hrange, hcovers⟩
    exact ⟨range, (List.mem_filter.mp hrange).1, hcovers⟩
  · rintro ⟨range, hrange, hstart, hstop, hsame⟩
    refine ⟨range, List.mem_filter.mpr ⟨hrange, ?_⟩, hstart, hstop, hsame⟩
    rw [decide_eq_true_eq]
    omega

/-! ## The invariant -/

/-- The send under way, between its two sections. -/
structure Under (f : Stream) (s : Sending) : Prop where
  stream : s.message.messageMode = false
  fits : s.start + s.message.len < 2 ^ 64
  lower : s.start ≤ f.bytes.length
  upper : f.bytes.length ≤ s.start + s.message.len
  credentials : s.hasCredentials = (f.dir.queue.sender s.message).isSome
  record : ∀ r, s.message.record = some r → (s.start, r.token) ∈ f.attached

/-- The bytes that a receive has taken and not yet published. -/
def taken : Option Receiving → Nat
  | some (.taken amount) => amount
  | _ => 0

/-- A receive under way stays within the bytes of the pipe, and from its limit on it keeps
to a window. -/
def Receives (f : Stream) (r : Receiving) : Prop :=
  f.dir.queue.received + r.amount ≤ f.bytes.length ∧
    (r.isLimited = true → Window f.attached f.bytes f.dir.queue.readerPasscred
      f.dir.queue.received (f.dir.queue.received + r.amount))

structure Inv (f : Stream) : Prop where
  sound : f.dir.Sound
  accepted : f.dir.queue.Accepted
  sending : ∀ s, f.dir.sending = some s → f.Under s
  idle : f.dir.sending = none → f.bytes.length = f.dir.queue.sent
  records : f.dir.queue.records.map Record.key =
    f.attached.filter fun a => decide (f.dir.queue.received ≤ a.1)
  pinned : f.pinned = f.dir.queue.records.map Record.token
  sorted : f.attached.Pairwise fun a b => a.1 < b.1
  nodup : (f.attached.map Prod.snd).Nodup
  before : ∀ a ∈ f.attached, a.1 < f.dir.queue.sent ∨
    a.1 = f.dir.queue.sent ∧ ∃ s, f.dir.sending = some s ∧ s.message.carries a.2 = true
  first : ∀ a ∈ f.attached, ∀ b, f.bytes[a.1]? = some b → b.send = a.1
  flight : ∀ i b, f.dir.queue.sent ≤ i → f.bytes[i]? = some b → b.send = f.dir.queue.sent
  -- A record reaches as far as the bytes of its send, or is of the send under way.
  extent : ∀ r ∈ f.dir.queue.records, r.offset = f.dir.queue.sent ∨
    r.offset + r.length ≤ f.dir.queue.sent
  origin : ∀ r ∈ f.dir.queue.records, ∀ i b, r.offset ≤ i → i < r.offset + r.length →
    f.bytes[i]? = some b → b.send = r.offset
  covered : ∀ i sender, f.dir.queue.received ≤ i →
    (f.owner i = some sender ↔ Covered f.dir.queue.credentials i sender)
  consumed : f.consumed = f.dir.queue.received + taken f.receiving
  received : f.dir.queue.received ≤ f.bytes.length
  receiving : ∀ r, f.receiving = some r → f.Receives r
  history : f.History

variable {f : Stream}

theorem Inv.read (h : f.Inv) : f.dir.queue.read = .ok f.dir.queue :=
  read_of_accepted h.sound.wellFormed h.accepted

/-! ## What a sender's step leaves to the receiver -/

/-- The bytes of the pipe, and what is attached to them, stay as they are. -/
structure Grows (f g : Stream) : Prop where
  bytes : ∃ more, g.bytes = f.bytes ++ more
  attached : (g.attached.filter fun a => decide (a.1 < f.bytes.length)) =
    f.attached.filter fun a => decide (a.1 < f.bytes.length)
  received : g.dir.queue.received = f.dir.queue.received
  passcred : g.dir.queue.readerPasscred = f.dir.queue.readerPasscred
  consumed : g.consumed = f.consumed
  receiving : g.receiving = f.receiving
  deliveries : g.deliveries = f.deliveries

section Grows

variable {f g : Stream} (h : f.Grows g)

include h

theorem Grows.length_le : f.bytes.length ≤ g.bytes.length := by
  obtain ⟨more, hmore⟩ := h.bytes
  rw [hmore, List.length_append]
  omega

theorem Grows.mem (ha : a ∈ g.attached) (hless : a.1 < f.bytes.length) : a ∈ f.attached := by
  have hcut : a ∈ g.attached.filter fun a => decide (a.1 < f.bytes.length) :=
    List.mem_filter.mpr ⟨ha, decide_eq_true hless⟩
  rw [h.attached] at hcut
  exact (List.mem_filter.mp hcut).1

theorem Grows.filter {start : Nat} (hstop : stop ≤ f.bytes.length) :
    g.attached.filter (within start stop) = f.attached.filter (within start stop) := by
  have hcut : ∀ l : List (Nat × BitVec 64), l.filter (within start stop) =
      (l.filter fun a => decide (a.1 < f.bytes.length)).filter (within start stop) := by
    intro l
    rw [List.filter_filter]
    refine List.filter_congr fun a _ => ?_
    rw [Bool.eq_iff_iff, Bool.and_eq_true, within_iff, decide_eq_true_eq]
    omega
  rw [hcut g.attached, h.attached, ← hcut]

theorem Grows.window {start : Nat} (hstop : stop ≤ f.bytes.length)
    (hwindow : Window f.attached f.bytes f.dir.queue.readerPasscred start stop) :
    Window g.attached g.bytes g.dir.queue.readerPasscred start stop := by
  obtain ⟨more, hmore⟩ := h.bytes
  rw [hmore, h.passcred]
  exact hwindow.mono hstop more fun a ha hless => h.mem ha (by omega)

theorem Grows.receives {r : Receiving} (hr : f.Receives r) : g.Receives r := by
  obtain ⟨hbound, hwindow⟩ := hr
  have hlength := h.length_le
  refine ⟨by rw [h.received]; omega, fun hlimited => ?_⟩
  rw [h.received]
  exact h.window hbound (hwindow hlimited)

theorem Grows.history (hreceived : f.dir.queue.received ≤ f.bytes.length)
    (hist : f.History) : g.History where
  window d hd := by
    rw [h.deliveries] at hd
    obtain ⟨hstop, hwindow⟩ := hist.window d hd
    exact ⟨hstop.trans h.length_le, h.window hstop hwindow⟩
  rights d hd := by
    rw [h.deliveries] at hd
    rw [h.filter (hist.window d hd).1]
    exact hist.rights d hd
  bytes := by
    rw [consuming, h.deliveries, h.received]
    exact hist.bytes
  once := by
    rw [consuming, h.deliveries, h.received, h.filter hreceived]
    exact hist.once

end Grows

/-! ## The first section of a send -/

variable {m : Message}

theorem mem_key {offset : Nat} : a ∈ m.key offset ↔ a.1 = offset ∧ m.carries a.2 = true := by
  unfold Message.key Message.carries
  cases m.record with
  | none => simp
  | some r =>
    rw [Option.toList_some, List.map_singleton, List.mem_singleton, Option.any_some,
      beq_iff_eq, Prod.ext_iff]
    exact and_congr_right fun _ => eq_comm

theorem key_pairwise (m : Message) (offset : Nat) :
    (m.key offset).Pairwise fun a b => a.1 < b.1 := by
  unfold Message.key
  cases m.record <;> simp

theorem key_nodup (m : Message) (offset : Nat) : ((m.key offset).map Prod.snd).Nodup := by
  unfold Message.key
  cases m.record <;> simp

theorem map_key_pushed (m : Message) (offset : Nat) :
    (m.pushed offset).map Record.key = m.key offset := by
  rw [Message.pushed, Message.key, List.map_map]
  rfl

theorem map_token_pushed (m : Message) (offset : Nat) :
    (m.pushed offset).map Record.token = m.record.toList.map Record.token := by
  rw [Message.pushed, List.map_map]
  rfl

theorem map_token (records : List Record) :
    records.map Record.token = (records.map Record.key).map Prod.snd := by
  rw [List.map_map]
  rfl

theorem direction_send {s : Direction} (h : s.Sound) (m : Message) :
    s.send m = s ∨ s.Publishes m ∧ s.send m = ⟨{ s.queue with
          records := s.queue.records ++ m.pushed s.queue.sent
          credentials := s.queue.attached m },
        some ⟨m, s.queue.sent, (s.queue.sender m).isSome⟩⟩ := by
  unfold Direction.send
  split
  · exact .inl rfl
  · next hfree =>
    split
    · exact .inl rfl
    · next q hread =>
      cases read_ok h.wellFormed hread
      split
      · exact .inl rfl
      · next next hnext =>
        obtain ⟨-, -, rfl, -⟩ := publish_cases hnext
        exact .inr ⟨publishes_of_publish hfree hnext, rfl⟩

theorem covered_attached {q : Queue} (h : Ordered q.credentials) (hstream : m.messageMode = false)
    (hlen : m.len ≠ 0) :
    Covered (q.attached m) i sender ↔ Covered q.credentials i sender ∨
      q.sent ≤ i ∧ i < q.sent + m.len ∧ q.sender m = some sender := by
  unfold Queue.attached
  cases hsender : q.sender m with
  | none => simp
  | some named =>
    rw [hstream]
    show Covered (attach q.credentials q.sent (q.sent + m.len) named) i sender ↔ _
    rw [covered_attach h (by omega), Option.some_inj]

theorem inv_send (h : f.Inv) (hstream : m.messageMode = false)
    (hroom : Room f (.send m hstream)) : (f.send m).Inv := by
  have hsound := sound_send h.sound m
  have haccepted := accepted_step h.sound h.accepted hroom.1
  change (f.dir.send m).queue.Accepted at haccepted
  rcases direction_send h.sound m with hsame | ⟨hpublishes, hnext⟩
  · have hskip : f.send m = f := by
      rw [send, hsame, if_neg]
      rw [Option.isNone_iff_eq_none, Option.isSome_iff_exists]
      rintro ⟨hnone, s, hsome⟩
      rw [hnone] at hsome
      cases hsome
    rw [hskip]
    exact h
  obtain ⟨hfits, hfresh⟩ := hroom.2 hpublishes
  obtain ⟨hidle, hlen, -⟩ := hpublishes
  have hlength := h.idle hidle
  have hpos : m.len ≠ 0 := fun hzero => hlen ⟨hzero, by rw [hstream]; decide⟩
  have hold : ∀ a ∈ f.attached, a.1 < f.dir.queue.sent := by
    intro a ha
    rcases h.before a ha with hless | ⟨-, s, hsome, -⟩
    · exact hless
    · rw [hidle] at hsome
      cases hsome
  have hend : ∀ i b, f.dir.queue.sent ≤ i → ¬ f.bytes[i]? = some b := by
    intro i b hi hb
    rw [List.getElem?_eq_none (by omega)] at hb
    cases hb
  have hreceived := h.received
  rw [hnext] at hsound haccepted
  have hsend : f.send m = { f with
        dir := ⟨{ f.dir.queue with
            records := f.dir.queue.records ++ m.pushed f.dir.queue.sent
            credentials := f.dir.queue.attached m },
          some ⟨m, f.dir.queue.sent, (f.dir.queue.sender m).isSome⟩⟩
        attached := f.attached ++ m.key f.dir.queue.sent
        pinned := f.pinned ++ m.record.toList.map Record.token } := by
    rw [send, hnext, hidle]
    rfl
  rw [hsend]
  have hgrows : f.Grows
      { f with
        dir := ⟨{ f.dir.queue with
            records := f.dir.queue.records ++ m.pushed f.dir.queue.sent
            credentials := f.dir.queue.attached m },
          some ⟨m, f.dir.queue.sent, (f.dir.queue.sender m).isSome⟩⟩
        attached := f.attached ++ m.key f.dir.queue.sent
        pinned := f.pinned ++ m.record.toList.map Record.token } :=
    { bytes := ⟨[], (List.append_nil _).symm⟩
      attached := by
        have hnone : (m.key f.dir.queue.sent).filter
            (fun a => decide (a.1 < f.bytes.length)) = [] := by
          rw [List.filter_eq_nil_iff]
          intro a ha
          rw [decide_eq_true_eq, (mem_key.mp ha).1]
          omega
        rw [List.filter_append, hnone, List.append_nil]
      received := rfl
      passcred := rfl
      consumed := rfl
      receiving := rfl
      deliveries := rfl }
  exact
    { sound := hsound
      accepted := haccepted
      sending := fun s hs => by
        cases hs
        exact
          { stream := hstream
            fits := hfits
            lower := hlength.ge
            upper := by
              show f.bytes.length ≤ f.dir.queue.sent + m.len
              omega
            credentials := rfl
            record := fun r hr => List.mem_append_right _ (mem_key.mpr ⟨rfl, by
              rw [Message.carries, hr, Option.any_some]
              exact beq_self_eq_true _⟩) }
      idle := fun hnone => by cases hnone
      records := by
        have hall : (m.key f.dir.queue.sent).filter
            (fun a => decide (f.dir.queue.received ≤ a.1)) = m.key f.dir.queue.sent := by
          rw [List.filter_eq_self]
          intro a ha
          rw [decide_eq_true_eq, (mem_key.mp ha).1]
          omega
        show (f.dir.queue.records ++ m.pushed f.dir.queue.sent).map Record.key = _
        rw [List.map_append, map_key_pushed, h.records, List.filter_append, hall]
      pinned := by
        show f.pinned ++ _ = (f.dir.queue.records ++ m.pushed f.dir.queue.sent).map Record.token
        rw [List.map_append, map_token_pushed, h.pinned]
      sorted := List.pairwise_append.mpr ⟨h.sorted, key_pairwise m _, fun a ha b hb => by
        rw [(mem_key.mp hb).1]
        exact hold a ha⟩
      nodup := by
        rw [List.map_append, List.nodup_append]
        refine ⟨h.nodup, key_nodup m _, fun token htoken other hother => ?_⟩
        obtain ⟨a, ha, rfl⟩ := List.mem_map.mp htoken
        obtain ⟨b, hb, rfl⟩ := List.mem_map.mp hother
        intro hsame
        have hcarries := (mem_key.mp hb).2
        rw [← hsame, hfresh a ha] at hcarries
        cases hcarries
      before := fun a ha => by
        rcases List.mem_append.mp ha with ha | ha
        · exact .inl (hold a ha)
        · exact .inr ⟨(mem_key.mp ha).1, _, rfl, (mem_key.mp ha).2⟩
      first := fun a ha b hb => by
        rcases List.mem_append.mp ha with ha | ha
        · exact h.first a ha b hb
        · exact absurd hb (hend _ b (mem_key.mp ha).1.ge)
      flight := fun i b hi hb => absurd hb (hend i b hi)
      extent := fun r hr => by
        rcases List.mem_append.mp hr with hr | hr
        · exact h.extent r hr
        · obtain ⟨old, -, rfl⟩ := List.mem_map.mp hr
          exact .inl rfl
      origin := fun r hr i b hi hless hb => by
        rcases List.mem_append.mp hr with hr | hr
        · exact h.origin r hr i b hi hless hb
        · obtain ⟨old, -, rfl⟩ := List.mem_map.mp hr
          exact absurd hb (hend i b hi)
      covered := fun i sender hi => by
        show _ ↔ Covered (f.dir.queue.attached m) i sender
        rw [covered_attached h.sound.wellFormed.ordered hstream hpos, ← h.covered i sender hi,
          owner, owner, hidle]
        cases hb : f.bytes[i]? with
        | some b =>
          have hless : i < f.bytes.length := by
            by_contra hge
            rw [List.getElem?_eq_none (by omega)] at hb
            cases hb
          exact ⟨.inl, fun hor => hor.elim id fun hnew => by omega⟩
        | none =>
          have hge : f.dir.queue.sent ≤ i := by
            rw [List.getElem?_eq_none_iff] at hb
            omega
          show (if i < f.dir.queue.sent + m.len then f.dir.queue.sender m else none) =
            some sender ↔ none = some sender ∨ _
          split
          · next hless => exact ⟨fun heq => .inr ⟨hge, hless, heq⟩,
              fun hor => hor.elim (fun hnone => by cases hnone) fun hnew => hnew.2.2⟩
          · next hless => exact ⟨.inl, fun hor => hor.elim id fun hnew => by omega⟩
      consumed := h.consumed
      received := h.received
      receiving := fun r hr => hgrows.receives (h.receiving r hr)
      history := hgrows.history h.received h.history }

/-! ## The pipe takes bytes -/

theorem getElem?_write (bytes : List Origin) (count : Nat) (b : Origin) (i : Nat) :
    (bytes ++ List.replicate count b)[i]? =
      if i < bytes.length then bytes[i]? else if i < bytes.length + count then some b else none := by
  split
  · next hless => exact List.getElem?_append_left hless
  · next hge =>
    rw [List.getElem?_append_right (by omega), List.getElem?_replicate]
    refine if_congr ?_ rfl rfl
    omega

theorem inv_write (h : f.Inv) (count : Nat) : (f.write count).Inv := by
  unfold write
  split
  · exact h
  · next s hs =>
    split
    · next hcount =>
      have hunder := h.sending s hs
      have hstart := h.sound.start s hs
      have hlower := hunder.lower
      have hgrows : f.Grows
          { f with
            bytes := f.bytes ++ List.replicate count ⟨s.start, f.dir.queue.sender s.message⟩ } :=
        { bytes := ⟨_, rfl⟩
          attached := rfl
          received := rfl
          passcred := rfl
          consumed := rfl
          receiving := rfl
          deliveries := rfl }
      -- A byte is an old one, or one of the send under way.
      have hbyte : ∀ i b, (f.bytes ++ List.replicate count
          ⟨s.start, f.dir.queue.sender s.message⟩)[i]? = some b →
          f.bytes[i]? = some b ∨ f.bytes.length ≤ i ∧ b.send = f.dir.queue.sent := by
        intro i b hb
        rw [getElem?_write] at hb
        split at hb
        · exact .inl hb
        · next hge =>
          split at hb
          · cases hb
            exact .inr ⟨by omega, hstart.symm⟩
          · cases hb
      exact
        { h with
          sending := fun other hother => by
            rw [hs] at hother
            cases hother
            exact
              { hunder with
                lower := hlower.trans hgrows.length_le
                upper := by
                  show (f.bytes ++ List.replicate count _).length ≤ _
                  rw [List.length_append, List.length_replicate]
                  exact hcount }
          idle := fun hnone => by
            rw [hs] at hnone
            cases hnone
          first := fun a ha b hb => by
            rcases hbyte a.1 b hb with hb | ⟨hge, hsend⟩
            · exact h.first a ha b hb
            · rcases h.before a ha with hless | ⟨heq, -⟩
              · omega
              · rw [hsend, heq]
          flight := fun i b hi hb => by
            rcases hbyte i b hb with hb | ⟨-, hsend⟩
            · exact h.flight i b hi hb
            · exact hsend
          origin := fun r hr i b hi hless hb => by
            rcases hbyte i b hb with hb | ⟨hge, hsend⟩
            · exact h.origin r hr i b hi hless hb
            · rcases h.extent r hr with heq | hle
              · rw [hsend, heq]
              · omega
          covered := fun i sender hi => by
            rw [← h.covered i sender hi]
            refine Eq.congr_left ?_
            unfold owner
            dsimp only
            rw [getElem?_write, hs]
            by_cases hold : i < f.bytes.length
            · rw [if_pos hold]
            have hnone : f.bytes[i]? = none := List.getElem?_eq_none (by omega)
            rw [if_neg hold, hnone]
            by_cases hnew : i < f.bytes.length + count
            · rw [if_pos hnew]
              exact (if_pos (by omega)).symm
            · rw [if_neg hnew]
          received := h.received.trans hgrows.length_le
          receiving := fun r hr => hgrows.receives (h.receiving r hr)
          history := hgrows.history h.received h.history }
    · exact h

/-! ## The second section of a send -/

theorem dropRecord_carries (q : Queue) (s : Sending) : q.dropRecord s =
      { q with records := q.records.filter fun r => !s.message.carries r.token } := by
  unfold Queue.dropRecord Message.carries
  cases s.message.record with
  | none => simp
  | some record =>
    have hsame : ∀ r : Record, decide (r.token ≠ record.token) = !(record.token == r.token) := by
      intro r
      by_cases heq : r.token = record.token
      · simp [heq]
      · simp [heq, Ne.symm heq]
    simp only [hsame, Option.any_some]

theorem section_ok {s : Direction} (h : s.Sound) (haccepted : s.queue.Accepted)
    {op : Queue → Except Int Queue} {next : Queue} (hop : op s.queue = .ok next) :
    s.section op = { s with queue := next } := by
  have hboth : (s.queue.read >>= op) = .ok next := by
    rw [read_of_accepted h.wellFormed haccepted]
    exact hop
  rw [Direction.section, hboth]

section Sent

variable {s : Direction} (h : s.Sound) (haccepted : s.queue.Accepted) {sending : Sending}
  (hsending : s.sending = some sending)

include h haccepted hsending

theorem direction_sent_error (error : Int) (quota : Bool) :
    ∃ blocked, s.sent (.error error) quota = ⟨{ s.queue with
          writerBlocked := blocked
          records := s.queue.records.filter fun r => !sending.message.carries r.token
          credentials := if sending.hasCredentials then (s.queue.trim sending.start).credentials
            else s.queue.credentials }, none⟩ := by
  unfold Direction.sent
  rw [hsending]
  dsimp only
  split
  · next hunpublished =>
    unfold Sending.unpublished at hunpublished
    rw [Bool.and_eq_true, Bool.and_eq_true, Bool.not_eq_true', Option.isNone_iff_eq_none]
      at hunpublished
    have hcarries : ∀ r : Record, (!sending.message.carries r.token) = true := by
      intro r
      rw [Message.carries, hunpublished.1.1]
      rfl
    refine ⟨s.queue.writerBlocked, ?_⟩
    rw [hunpublished.1.2, if_neg Bool.false_ne_true, List.filter_eq_self.mpr fun r _ => hcarries r]
  have hsettle : s.queue.settle sending (.error error) quota = .ok
      { s.queue with
        writerBlocked := if error = EAGAIN then !quota else s.queue.writerBlocked
        records := s.queue.records.filter fun r => !sending.message.carries r.token
        credentials := if sending.hasCredentials then (s.queue.trim sending.start).credentials
          else s.queue.credentials } := by
    rw [settle_failed]
    dsimp only
    rw [dropRecord_carries]
    cases sending.hasCredentials <;> rfl
  have hwell := settle_wellFormed h.wellFormed (fun n hn => by cases hn) hsettle
  have hcommit : s.queue.commit sending (.error error) quota =
      s.queue.settle sending (.error error) quota := by
    rw [Queue.commit, hsettle]
    exact write_of_wellFormed hwell
  refine ⟨if error = EAGAIN then !quota else s.queue.writerBlocked, ?_⟩
  rw [section_ok h haccepted (hcommit.trans hsettle)]

/-- The second section of a send of which the pipe took `n` bytes. -/
theorem direction_sent_ok (hstream : sending.message.messageMode = false) {n : Nat}
    (hpos : 0 < n) (hn : n ≤ sending.message.len)
    (hfits : s.queue.sent + sending.message.len < 2 ^ 64) (quota : Bool) :
    s.sent (.ok n) quota = ⟨{ s.queue with
          sent := s.queue.sent + n
          records := sending.records n s.queue.records
          credentials := if sending.hasCredentials then (s.queue.trim (s.queue.sent + n)).credentials
            else s.queue.credentials }, none⟩ := by
  have hsettle : s.queue.settle sending (.ok n) quota = .ok
      { s.queue with
        sent := s.queue.sent + n
        records := sending.records n s.queue.records
        credentials := if sending.hasCredentials then (s.queue.trim (s.queue.sent + n)).credentials
          else s.queue.credentials } := by
    rw [settle_ok, advanced_eq, hstream]
    show (if s.queue.sent + n < 2 ^ 64 then _ else _) >>= _ = _
    rw [if_pos (by omega)]
    have hkept : n > 0 ∨ false = true := .inl hpos
    show Except.ok _ = _
    rw [if_pos hkept]
    cases sending.hasCredentials <;> rfl
  have hwell := settle_wellFormed h.wellFormed (fun k hk => by
      cases hk
      have := sending.message.fits
      omega) hsettle
  have hcommit : s.queue.commit sending (.ok n) quota = s.queue.settle sending (.ok n) quota := by
    rw [Queue.commit, hsettle]
    exact write_of_wellFormed hwell
  unfold Direction.sent
  rw [hsending]
  dsimp only
  have hpublished : sending.unpublished (.ok n) = false := by
    rw [Sending.unpublished, Bool.and_false]
  rw [hpublished, if_neg Bool.false_ne_true, Except.map, Nat.min_eq_right hn,
    section_ok h haccepted (hcommit.trans hsettle)]

end Sent

/-! ### The records and ranges that remain -/

theorem map_key_setLength (token : BitVec 64) (sent : Nat) (records : List Record) :
    (setLength token sent records).map Record.key = records.map Record.key := by
  obtain ⟨-, hset⟩ | ⟨before, old, after, rfl, -, -, hset⟩ := setLength_cases token sent records
  · rw [hset]
  · simp only [hset, List.map_append, List.map_cons]
    rfl

theorem map_key_records (s : Sending) (n : Nat) (records : List Record) :
    (s.records n records).map Record.key = records.map Record.key := by
  unfold Sending.records
  split
  · rfl
  · exact map_key_setLength _ _ _

variable {records : List Record} {r : Record}

theorem setLength_nodup {token : BitVec 64} {sent : Nat} (hnodup : (records.map Record.token).Nodup)
    (hr : r ∈ setLength token sent records) :
    ∃ old ∈ records, r.key = old.key ∧
      (old.token = token → r.length = sent) ∧ (old.token ≠ token → r.length = old.length) := by
  obtain ⟨hnot, hset⟩ | ⟨before, old, after, rfl, hold, hbefore, hset⟩ :=
    setLength_cases token sent records
  · rw [hset] at hr
    exact ⟨r, hr, rfl, fun htoken => absurd htoken (hnot r hr), fun _ => rfl⟩
  rw [hset] at hr
  rcases List.mem_append.mp hr with hr | hr
  · exact ⟨r, List.mem_append_left _ hr, rfl, fun htoken => absurd htoken (hbefore r hr),
      fun _ => rfl⟩
  rcases List.mem_cons.mp hr with rfl | hr
  · exact ⟨old, by simp, rfl, fun _ => rfl, fun hnot => absurd hold hnot⟩
  rw [List.map_append, List.map_cons, List.nodup_append, List.nodup_cons] at hnodup
  refine ⟨r, by simp [hr], rfl, fun htoken => ?_, fun _ => rfl⟩
  refine absurd (List.mem_map.mpr ⟨r, hr, ?_⟩) hnodup.2.1.1
  rw [htoken, hold]

/-- A record after a send of `n` bytes is an old one, or the one of the send, which is `n`
bytes long now. -/
theorem mem_records {s : Sending} {n : Nat} (hnodup : (records.map Record.token).Nodup)
    (hr : r ∈ s.records n records) :
    ∃ old ∈ records, r.key = old.key ∧ (s.message.carries old.token = true → r.length = n) ∧
      (s.message.carries old.token = false → r.length = old.length) := by
  unfold Sending.records at hr
  unfold Message.carries
  cases hrecord : s.message.record with
  | none =>
    rw [hrecord] at hr
    exact ⟨r, hr, rfl, fun hcarries => (by cases hcarries), fun _ => rfl⟩
  | some record =>
    rw [hrecord] at hr
    obtain ⟨old, hold, hkey, hyes, hno⟩ := setLength_nodup hnodup hr
    refine ⟨old, hold, hkey, fun hcarries => hyes ?_, fun hcarries => hno ?_⟩
    · rw [Option.any_some, beq_iff_eq] at hcarries
      exact hcarries.symm
    · rw [Option.any_some, beq_eq_false_iff_ne] at hcarries
      exact hcarries.symm

theorem Inv.record_nodup (h : f.Inv) : (f.dir.queue.records.map Record.token).Nodup := by
  rw [map_token, h.records]
  exact (List.Sublist.map _ List.filter_sublist).nodup h.nodup

theorem Inv.record_attached (h : f.Inv) (hr : r ∈ f.dir.queue.records) : r.key ∈ f.attached := by
  have hmem := List.mem_map_of_mem (f := Record.key) hr
  rw [h.records] at hmem
  exact (List.mem_filter.mp hmem).1

section Settle

variable {f : Stream} (h : f.Inv) {s : Sending} (hs : f.dir.sending = some s)

include h hs

theorem Inv.start : f.dir.queue.sent = s.start := h.sound.start s hs

theorem Inv.carried (ha : a ∈ f.attached)
    (hcarries : s.message.carries a.2 = true) : a.1 = s.start := by
  unfold Message.carries at hcarries
  rw [Option.any_eq_true] at hcarries
  obtain ⟨r, hr, htoken⟩ := hcarries
  have hmem := (h.sending s hs).record r hr
  have hsame := List.inj_on_of_nodup_map h.nodup hmem ha (beq_iff_eq.mp htoken)
  rw [← hsame]

/-- The ranges after the second section, when the bytes end at `stop`. -/
theorem Inv.covered_settled (hi : f.dir.queue.received ≤ i) :
    ((f.bytes[i]?).bind Origin.sender = some sender ↔
      Covered (if s.hasCredentials then (f.dir.queue.trim f.bytes.length).credentials
        else f.dir.queue.credentials) i sender) := by
  have hcovered := h.covered i sender hi
  rw [owner, hs] at hcovered
  have hcredentials := (h.sending s hs).credentials
  cases hb : f.bytes[i]? with
  | some b =>
    rw [hb] at hcovered
    have hless : i < f.bytes.length := by
      by_contra hge
      rw [List.getElem?_eq_none (by omega)] at hb
      cases hb
    show b.sender = some sender ↔ _
    rw [hcovered]
    split
    · rw [covered_trim hi]
      exact (and_iff_left hless).symm
    · exact Iff.rfl
  | none =>
    rw [hb] at hcovered
    rw [List.getElem?_eq_none_iff] at hb
    show none = some sender ↔ _
    refine iff_of_false (fun hnone => by cases hnone) ?_
    split
    · rw [covered_trim hi]
      rintro ⟨-, hless⟩
      omega
    · next hhas =>
      rw [hcredentials, Bool.not_eq_true, Option.isSome_eq_false_iff,
        Option.isNone_iff_eq_none] at hhas
      rw [← hcovered]
      show ¬ (if i < s.start + s.message.len then f.dir.queue.sender s.message else none) =
        some sender
      rw [hhas, ite_self]
      exact fun hnone => by cases hnone

end Settle

theorem inv_sent_ok (h : f.Inv) {s : Sending} (hs : f.dir.sending = some s)
    (hwrote : f.bytes.length ≠ s.start) (quota : Bool) :
    Inv { f with dir := f.dir.sent (.ok (f.bytes.length - s.start)) quota } := by
  have hunder := h.sending s hs
  have hlower := hunder.lower
  have hupper := hunder.upper
  have hfits := hunder.fits
  have hstart := h.start hs
  have hsound := sound_sent h.sound (.ok (f.bytes.length - s.start)) quota
  have haccepted : (Unix.step f.dir (.sent (.ok (f.bytes.length - s.start)) quota)).queue.Accepted :=
    accepted_step h.sound h.accepted trivial
  change (f.dir.sent (.ok (f.bytes.length - s.start)) quota).queue.Accepted at haccepted
  have hnext := direction_sent_ok h.sound h.accepted hs hunder.stream
    (n := f.bytes.length - s.start) (by omega) (by omega) (by omega) quota
  have hlength : f.dir.queue.sent + (f.bytes.length - s.start) = f.bytes.length := by omega
  rw [hlength] at hnext
  rw [hnext] at hsound haccepted ⊢
  have hgrows : f.Grows
      { f with
        dir := ⟨{ f.dir.queue with
          sent := f.bytes.length
          records := s.records (f.bytes.length - s.start) f.dir.queue.records
          credentials := if s.hasCredentials then (f.dir.queue.trim f.bytes.length).credentials
            else f.dir.queue.credentials }, none⟩ } :=
    { bytes := ⟨[], (List.append_nil _).symm⟩
      attached := rfl
      received := rfl
      passcred := rfl
      consumed := rfl
      receiving := rfl
      deliveries := rfl }
  -- The record of the send starts with its bytes, and ends with them.
  have hrecord : ∀ r ∈ s.records (f.bytes.length - s.start) f.dir.queue.records,
      r.offset + r.length ≤ f.bytes.length ∧ ∀ i b, r.offset ≤ i → i < r.offset + r.length →
        f.bytes[i]? = some b → b.send = r.offset := by
    intro r hr
    obtain ⟨old, hold, hkey, hyes, hno⟩ := mem_records h.record_nodup hr
    have hoffset : r.offset = old.offset := congrArg Prod.fst hkey
    cases hcarries : s.message.carries old.token with
    | true =>
      have hfirst : old.offset = s.start := h.carried hs (h.record_attached hold) hcarries
      have hlen := hyes hcarries
      refine ⟨by omega, fun i b hi _ hb => ?_⟩
      rw [h.flight i b (by omega) hb]
      omega
    | false =>
      have hlen := hno hcarries
      have hless : old.offset + old.length ≤ f.dir.queue.sent := by
        rcases h.extent old hold with heq | hle
        · rcases h.before old.key (h.record_attached hold) with hbefore | ⟨-, other, hother, hcarried⟩
          · have : old.offset < f.dir.queue.sent := hbefore
            omega
          · rw [hs] at hother
            cases hother
            rw [show old.key.2 = old.token from rfl, hcarries] at hcarried
            cases hcarried
        · exact hle
      rw [hoffset, hlen]
      exact ⟨by omega, h.origin old hold⟩
  exact
    { h with
      sound := hsound
      accepted := haccepted
      sending := fun other hother => by cases hother
      idle := fun _ => rfl
      records := (map_key_records _ _ _).trans h.records
      pinned := by
        show f.pinned = (s.records _ f.dir.queue.records).map Record.token
        rw [map_token, map_key_records, ← map_token]
        exact h.pinned
      before := fun a ha => .inl (by
        show a.1 < f.bytes.length
        rcases h.before a ha with hless | ⟨heq, -⟩ <;> omega)
      flight := fun i b hi hb => by
        rw [List.getElem?_eq_none hi] at hb
        cases hb
      extent := fun r hr => .inr (hrecord r hr).1
      origin := fun r hr => (hrecord r hr).2
      covered := fun i sender hi => by
        refine Iff.trans ?_ (h.covered_settled hs hi)
        rw [owner]
        cases f.bytes[i]? <;> rfl
      receiving := fun r hr => hgrows.receives (h.receiving r hr)
      history := hgrows.history h.received h.history }

theorem inv_sent_error (h : f.Inv) {s : Sending} (hs : f.dir.sending = some s)
    (hfailed : f.bytes.length = s.start) (error : Int) (quota : Bool) :
    Inv { f with
      dir := f.dir.sent (.error error) quota
      attached := f.attached.filter fun a => !s.message.carries a.2
      pinned := f.pinned.filter fun token => !s.message.carries token } := by
  have hstart := h.start hs
  have hreceived := h.received
  have hsound := sound_sent h.sound (.error error) quota
  have haccepted : (Unix.step f.dir (.sent (.error error) quota)).queue.Accepted :=
    accepted_step h.sound h.accepted trivial
  change (f.dir.sent (.error error) quota).queue.Accepted at haccepted
  obtain ⟨blocked, hnext⟩ := direction_sent_error h.sound h.accepted hs error quota
  rw [← hfailed] at hnext
  rw [hnext] at hsound haccepted ⊢
  have hgrows : f.Grows
      { f with
        dir := ⟨{ f.dir.queue with
          writerBlocked := blocked
          records := f.dir.queue.records.filter fun r => !s.message.carries r.token
          credentials := if s.hasCredentials then (f.dir.queue.trim f.bytes.length).credentials
            else f.dir.queue.credentials }, none⟩
        attached := f.attached.filter fun a => !s.message.carries a.2
        pinned := f.pinned.filter fun token => !s.message.carries token } :=
    { bytes := ⟨[], (List.append_nil _).symm⟩
      attached := by
        -- What the failed send attached is attached to no byte of the pipe.
        show List.filter _ (List.filter _ f.attached) = _
        rw [List.filter_filter]
        refine List.filter_congr fun a ha => ?_
        cases hcarries : s.message.carries a.2 with
        | false => rw [Bool.not_false, Bool.and_true]
        | true =>
          have hfirst := h.carried hs ha hcarries
          rw [Bool.not_true, Bool.and_false, eq_comm, decide_eq_false_iff_not]
          omega
      received := rfl
      passcred := rfl
      consumed := rfl
      receiving := rfl
      deliveries := rfl }
  have hrecords : ∀ r ∈ f.dir.queue.records.filter (fun r => !s.message.carries r.token),
      r ∈ f.dir.queue.records := fun r hr => (List.mem_filter.mp hr).1
  exact
    { h with
      sound := hsound
      accepted := haccepted
      sending := fun other hother => by cases hother
      idle := fun _ => hfailed.trans hstart.symm
      records := by
        show List.map Record.key (List.filter (fun r => !s.message.carries r.key.2) _) = _
        rw [show (fun r : Record => !s.message.carries r.key.2) =
          (fun a : Nat × BitVec 64 => !s.message.carries a.2) ∘ Record.key from rfl,
          ← List.filter_map, h.records, List.filter_filter, List.filter_filter]
        exact List.filter_congr fun a _ => Bool.and_comm _ _
      pinned := by
        show f.pinned.filter _ = List.map Record.token (List.filter _ _)
        rw [h.pinned, List.filter_map]
        rfl
      sorted := h.sorted.filter _
      nodup := (List.Sublist.map _ List.filter_sublist).nodup h.nodup
      before := fun a ha => by
        obtain ⟨ha, hcarries⟩ := List.mem_filter.mp ha
        rcases h.before a ha with hless | ⟨-, other, hother, hcarried⟩
        · exact .inl hless
        rw [hs] at hother
        cases hother
        rw [hcarried] at hcarries
        cases hcarries
      first := fun a ha => h.first a (List.mem_filter.mp ha).1
      extent := fun r hr => h.extent r (hrecords r hr)
      origin := fun r hr => h.origin r (hrecords r hr)
      covered := fun i sender hi => by
        refine Iff.trans ?_ (h.covered_settled hs hi)
        rw [owner]
        cases f.bytes[i]? <;> rfl
      receiving := fun r hr => hgrows.receives (h.receiving r hr)
      history := hgrows.history h.received h.history }

theorem inv_sent (h : f.Inv) (error : Int) (quota : Bool) : (f.sent error quota).Inv := by
  unfold sent
  split
  · exact h
  · next s hs =>
    split
    · next hfailed => exact inv_sent_error h hs hfailed error quota
    · next hwrote => exact inv_sent_ok h hs hwrote quota

end Stream

end Kinakaze.Unix
