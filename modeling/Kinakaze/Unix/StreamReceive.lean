import Kinakaze.Unix.StreamSend

/-!
# The receiver's steps on a byte stream

* `inv_inspect`, `inv_limit`, `inv_take`, `inv_commit`: the steps of a receive.
-/

namespace Kinakaze.Unix

open Library

namespace Stream

/-! ## Looking at the pipe -/

theorem limitRecords_le (q : Queue) (amount : Nat) : q.limitRecords amount ≤ amount := by
  unfold Queue.limitRecords
  split
  · exact Nat.min_le_left _ _
  · exact le_rfl

theorem limitCredentials_le (q : Queue) (amount : Nat) : q.limitCredentials amount ≤ amount := by
  unfold Queue.limitCredentials
  split
  · split
    · exact Nat.min_le_left _ _
    · exact le_rfl
  · exact le_rfl

section Limit

variable {f : Stream} (h : f.Inv)

include h

theorem Inv.length_lt : f.bytes.length < 2 ^ 64 := by
  cases hsending : f.dir.sending with
  | none =>
    rw [h.idle hsending]
    exact h.sound.wellFormed.sent
  | some s =>
    have hunder := h.sending s hsending
    exact hunder.upper.trans_lt hunder.fits

variable {a : Nat × BitVec 64}

theorem Inv.mem_records (ha : a ∈ f.attached)
    (hreceived : f.dir.queue.received ≤ a.1) : ∃ r ∈ f.dir.queue.records, r.key = a := by
  have hmem : a ∈ f.dir.queue.records.map Record.key := by
    rw [h.records]
    exact List.mem_filter.mpr ⟨ha, decide_eq_true hreceived⟩
  exact List.mem_map.mp hmem

theorem Inv.records_sorted : f.dir.queue.records.Pairwise fun r r' => r.offset < r'.offset := by
  have hsorted : (f.dir.queue.records.map Record.key).Pairwise fun a b => a.1 < b.1 := by
    rw [h.records]
    exact h.sorted.filter _
  exact (List.pairwise_map (f := Record.key)).mp hsorted

variable {amount i : Nat}

theorem Inv.limit_extent {n : Nat} (hamount : f.dir.queue.received + amount ≤ f.bytes.length)
    (hn : n ≤ f.dir.queue.limitRecords amount) (ha : a ∈ f.attached)
    (hwithin : within f.dir.queue.received (f.dir.queue.received + n) a = true) {b : Origin}
    (hai : a.1 ≤ i) (hi : i < f.dir.queue.received + n)
    (hb : f.bytes[i]? = some b) : b.send = a.1 := by
  obtain ⟨hreceived, hless⟩ := within_iff.mp hwithin
  obtain ⟨r, hr, rfl⟩ := h.mem_records ha hreceived
  have hoffset : r.offset < f.dir.queue.received + n := hless
  have hlength := h.length_lt
  have hle := limitRecords_le f.dir.queue amount
  have hfound : (decide (r.offset ≥ f.dir.queue.received) &&
      decide (r.offset < saturatingAdd f.dir.queue.received amount)) = true := by
    rw [Bool.and_eq_true, decide_eq_true_eq, decide_eq_true_eq]
    refine ⟨hreceived, ?_⟩
    unfold saturatingAdd
    omega
  unfold Queue.limitRecords at hn
  split at hn
  · next first hfirst =>
    obtain ⟨hbound, before, after, hsplit, hbefore⟩ := List.find?_eq_some_iff_append.mp hfirst
    rw [Bool.and_eq_true, decide_eq_true_eq, decide_eq_true_eq] at hbound
    have hfirstmem : first ∈ f.dir.queue.records := by
      rw [hsplit]
      simp
    have hsum : saturatingAdd (first.offset - f.dir.queue.received) first.length ≤
        first.offset - f.dir.queue.received + first.length := Nat.min_le_left _ _
    have hextent := h.origin first hfirstmem
    rw [hsplit] at hr
    rcases List.mem_append.mp hr with hr | hr
    · have hnot := hbefore r hr
      rw [hfound] at hnot
      cases hnot
    rcases List.mem_cons.mp hr with rfl | hr
    · exact hextent i b hai (by omega) hb
    have hsorted := h.records_sorted
    rw [hsplit, List.pairwise_append, List.pairwise_cons] at hsorted
    have hafter := hsorted.2.1.1 r hr
    have hbyte := List.getElem?_eq_getElem (l := f.bytes) (i := r.offset) (by omega)
    have hown := h.first r.key ha _ hbyte
    have hother := hextent r.offset _ (by omega) (by omega) hbyte
    have hkey : r.key.1 = r.offset := rfl
    omega
  · next hnone =>
    have hnot := List.find?_eq_none.mp hnone r hr
    exact absurd hfound hnot

theorem Inv.covered_byte {b : Origin} (hi : f.dir.queue.received ≤ i) (hb : f.bytes[i]? = some b)
    (sender : Sender) : b.sender = some sender ↔ Covered f.dir.queue.credentials i sender := by
  rw [← h.covered i sender hi, owner, hb]

theorem Inv.limit_same (hpasscred : f.dir.queue.readerPasscred = true) (amount : Nat) :
    ∃ sender, ∀ i b, f.dir.queue.received ≤ i →
      i < f.dir.queue.received + f.dir.queue.limitCredentials amount →
      f.bytes[i]? = some b → b.sender = sender := by
  -- Bytes before the first range that is not read were sent without credentials.
  have hplain : (∀ i sender, f.dir.queue.received ≤ i →
      i < f.dir.queue.received + f.dir.queue.limitCredentials amount →
      ¬ Covered f.dir.queue.credentials i sender) →
      ∃ sender, ∀ i b, f.dir.queue.received ≤ i →
        i < f.dir.queue.received + f.dir.queue.limitCredentials amount →
        f.bytes[i]? = some b → b.sender = sender := by
    intro hnone
    refine ⟨none, fun i b hi hless hb => ?_⟩
    rw [Option.eq_none_iff_forall_ne_some]
    intro sender hsender
    exact hnone i sender hi hless ((h.covered_byte hi hb sender).mp hsender)
  cases hfind : f.dir.queue.credentials.find?
      fun range => decide (range.stop > f.dir.queue.received) with
  | none =>
    refine hplain fun i sender hi _ hcovered => ?_
    obtain ⟨range, hrange, -, hstop, -⟩ := hcovered
    have hnot := List.find?_eq_none.mp hfind range hrange
    rw [decide_eq_true_eq] at hnot
    omega
  | some first =>
    have hlimit : f.dir.queue.limitCredentials amount = min amount
        ((if first.start > f.dir.queue.received then first.start else first.stop) -
          f.dir.queue.received) := by
      rw [Queue.limitCredentials, if_pos hpasscred, hfind]
    obtain ⟨hbound, before, after, hsplit, hbefore⟩ := List.find?_eq_some_iff_append.mp hfind
    rw [decide_eq_true_eq] at hbound
    have hordered := h.sound.wellFormed.ordered
    by_cases hstart : first.start > f.dir.queue.received
    · rw [if_pos hstart] at hlimit
      refine hplain fun i sender hi hless hcovered => ?_
      obtain ⟨range, hrange, hfrom, hstop, -⟩ := hcovered
      have hnonempty := hordered.nonempty first (by rw [hsplit]; simp)
      have hsorted := hordered.sorted
      rw [hsplit, List.pairwise_append, List.pairwise_cons] at hsorted
      rw [hsplit] at hrange
      rcases List.mem_append.mp hrange with hrange | hrange
      · have hnot := hbefore range hrange
        rw [Bool.not_eq_true', decide_eq_false_iff_not] at hnot
        omega
      · rcases List.mem_cons.mp hrange with rfl | hrange
        · omega
        · have hafter := hsorted.2.1.1 range hrange
          omega
    · rw [if_neg hstart] at hlimit
      refine ⟨some first.sender, fun i b hi hless hb => ?_⟩
      exact (h.covered_byte hi hb first.sender).mpr
        ⟨first, by rw [hsplit]; simp, by omega, by omega, rfl⟩

theorem Inv.limit (hamount : f.dir.queue.received + amount ≤ f.bytes.length) :
    f.dir.queue.limit amount ≤ amount ∧
      Window f.attached f.bytes f.dir.queue.readerPasscred f.dir.queue.received
        (f.dir.queue.received + f.dir.queue.limit amount) := by
  have hrecords := limitRecords_le f.dir.queue amount
  have hcredentials := limitCredentials_le f.dir.queue (f.dir.queue.limitRecords amount)
  refine ⟨hcredentials.trans hrecords, ?_, fun hpasscred => h.limit_same hpasscred _⟩
  intro a ha hwithin i b hai hi hb
  exact h.limit_extent hamount hcredentials ha hwithin hai hi hb

theorem Inv.receiver {consumed : Nat} {receiving : Option Receiving}
    (hconsumed : consumed = f.dir.queue.received + taken receiving)
    (hreceiving : ∀ r, receiving = some r → f.Receives r) : Inv { f with consumed, receiving } :=
  { h with
    sending := fun s hs => { h.sending s hs with }
    consumed := hconsumed
    receiving := hreceiving
    history := { h.history with } }

theorem inv_inspect (peek : Bool) (len : Nat) : (f.inspect peek len).Inv := by
  unfold inspect
  split
  · next hfree =>
    have hconsumed := h.consumed
    rw [hfree.1] at hconsumed
    refine h.receiver hconsumed fun r hr => ?_
    cases hr
    refine ⟨?_, nofun⟩
    have htaken : taken none = 0 := rfl
    show f.dir.queue.received + min len (f.bytes.length - f.consumed) ≤ f.bytes.length
    omega
  · exact h

theorem inv_limit : f.limit.Inv := by
  unfold limit
  split
  · next peek amount hreceiving =>
    have hconsumed := h.consumed
    rw [hreceiving] at hconsumed
    rw [h.read]
    refine h.receiver hconsumed fun r hr => ?_
    cases hr
    have hbound : f.dir.queue.received + amount ≤ f.bytes.length :=
      (h.receiving _ hreceiving).1
    obtain ⟨hle, hwindow⟩ := h.limit hbound
    refine ⟨?_, fun _ => hwindow⟩
    show f.dir.queue.received + f.dir.queue.limit amount ≤ f.bytes.length
    omega
  · exact h

theorem inv_take : f.take.Inv := by
  unfold take
  split
  · next amount hreceiving =>
    have hconsumed := h.consumed
    rw [hreceiving] at hconsumed
    refine h.receiver (congrArg (· + amount) hconsumed) fun r hr => ?_
    cases hr
    have hlimited := h.receiving _ hreceiving
    exact ⟨hlimited.1, fun _ => hlimited.2 rfl⟩
  · exact h

theorem inv_fail : f.fail.Inv := by
  unfold fail
  split
  · exact h
  · next hnot =>
    refine h.receiver ?_ nofun
    have hconsumed := h.consumed
    unfold taken at hconsumed
    split at hconsumed
    · next amount hreceiving => exact absurd hreceiving (hnot amount)
    · exact hconsumed

end Limit

/-! ## The last section of a receive -/

theorem length_filter_write (q : Queue) (p : Record → Bool) (c : CredentialRange → Bool) :
    ({ q with records := q.records.filter p, credentials := q.credentials.filter c } :
      Queue).encode.length ≤ q.encode.length := by
  refine length_encode_le (length_flatMap_filter_le _ p _) (length_flatMap_filter_le _ c _)
    (fun hnil => ?_) rfl rfl rfl rfl
  show q.credentials.filter c = []
  rw [hnil]
  rfl

theorem direction_receive {s : Direction} (h : s.Sound) (haccepted : s.queue.Accepted)
    {amount : Nat} (hfits : s.queue.received + amount < 2 ^ 64) :
    ∃ blocked, (s.section fun q => q.receive false amount) = { s with
        queue :=
          { s.queue with
            records := s.queue.records.filter fun r =>
              decide (r.offset ≥ s.queue.received + amount)
            received := s.queue.received + amount
            credentials := s.queue.credentials.filter fun range =>
              decide (range.stop > s.queue.received + amount)
            writerBlocked := blocked } } := by
  refine ⟨if s.queue.received + amount ≠ s.queue.received ∧ s.queue.writerBlocked then false
    else s.queue.writerBlocked, section_ok h haccepted ?_⟩
  unfold Queue.receive
  show (checkedAdd s.queue.received amount >>= _) = _
  rw [checkedAdd, if_pos hfits]
  refine (if_neg ?_).trans rfl
  have hsize := h.wellFormed.size
  have hle := length_filter_write s.queue (fun r => decide (r.offset ≥ s.queue.received + amount))
    (fun range => decide (range.stop > s.queue.received + amount))
  rw [Queue.length_encode] at hle ⊢
  exact not_lt.mpr (hle.trans hsize)

section Commit

variable {f : Stream} (h : f.Inv)

include h

theorem Inv.delivered (stop : Nat) : (f.dir.queue.delivered stop).map Record.key =
      f.attached.filter (within f.dir.queue.received stop) := by
  have hsame : f.dir.queue.delivered stop =
      f.dir.queue.records.filter (within f.dir.queue.received stop ∘ Record.key) := by
    refine List.filter_congr fun r _ => ?_
    rw [Function.comp_apply, Bool.eq_iff_iff, decide_eq_true_eq, within_iff]
    rfl
  rw [hsame, ← List.filter_map, h.records, List.filter_filter]
  refine List.filter_congr fun a _ => ?_
  rw [Bool.eq_iff_iff, Bool.and_eq_true, within_iff, decide_eq_true_eq]
  omega

theorem inv_peeked {amount : Nat} (hreceiving : f.receiving = some (.limited true amount)) :
    Inv { f with
      receiving := none
      deliveries := f.deliveries ++ [⟨true, f.dir.queue.received, f.dir.queue.received + amount,
        f.dir.queue.delivered (f.dir.queue.received + amount)⟩] } := by
  have hconsumed := h.consumed
  rw [hreceiving] at hconsumed
  have hreceives := h.receiving _ hreceiving
  have hsame : consuming { f with
      receiving := none
      deliveries := f.deliveries ++ [⟨true, f.dir.queue.received, f.dir.queue.received + amount,
        f.dir.queue.delivered (f.dir.queue.received + amount)⟩] } = f.consuming := by
    rw [consuming, List.filter_append]
    exact List.append_nil _
  exact
    { h with
      sending := fun s hs => { h.sending s hs with }
      consumed := hconsumed
      receiving := fun r hr => by cases hr
      history :=
        { window := fun d hd => by
            rcases List.mem_append.mp hd with hd | hd
            · exact h.history.window d hd
            · cases List.mem_singleton.mp hd
              exact ⟨hreceives.1, hreceives.2 rfl⟩
          rights := fun d hd => by
            rcases List.mem_append.mp hd with hd | hd
            · exact h.history.rights d hd
            · cases List.mem_singleton.mp hd
              exact h.delivered _
          bytes := by
            rw [hsame]
            exact h.history.bytes
          once := by
            rw [hsame]
            exact h.history.once } }

theorem inv_received {amount : Nat} (hreceiving : f.receiving = some (.taken amount)) : Inv { f with
      dir := f.dir.section fun q => q.receive false amount
      receiving := none
      pinned := f.pinned.filter fun token =>
        !(f.dir.queue.delivered (f.dir.queue.received + amount)).any fun r => r.token == token
      deliveries := f.deliveries ++ [⟨false, f.dir.queue.received, f.dir.queue.received + amount,
        f.dir.queue.delivered (f.dir.queue.received + amount)⟩] } := by
  have hconsumed := h.consumed
  rw [hreceiving] at hconsumed
  have hreceives := h.receiving _ hreceiving
  have hbound : f.dir.queue.received + amount ≤ f.bytes.length := hreceives.1
  have hlength := h.length_lt
  have hsound := sound_receive h.sound false amount
  have haccepted : (Unix.step f.dir (.recv false amount)).queue.Accepted :=
    accepted_step h.sound h.accepted trivial
  change (f.dir.section fun q => q.receive false amount).queue.Accepted at haccepted
  have hfits : f.dir.queue.received + amount < 2 ^ 64 := by omega
  obtain ⟨blocked, hnext⟩ := direction_receive h.sound h.accepted hfits
  rw [hnext] at hsound haccepted ⊢
  have hkept : ∀ r ∈ f.dir.queue.records.filter
      (fun r => decide (r.offset ≥ f.dir.queue.received + amount)), r ∈ f.dir.queue.records :=
    fun r hr => (List.mem_filter.mp hr).1
  exact
    { h with
      sound := hsound
      accepted := haccepted
      sending := fun s hs => { h.sending s hs with }
      records := by
        show List.map Record.key (List.filter
          ((fun a : Nat × BitVec 64 => decide (f.dir.queue.received + amount ≤ a.1)) ∘ Record.key)
          _) = _
        rw [← List.filter_map, h.records, List.filter_filter]
        refine List.filter_congr fun a _ => ?_
        rw [Bool.eq_iff_iff, Bool.and_eq_true, decide_eq_true_eq, decide_eq_true_eq]
        omega
      pinned := by
        show f.pinned.filter _ = List.map Record.token (List.filter _ _)
        rw [h.pinned, List.filter_map]
        refine congrArg _ (List.filter_congr fun r hr => ?_)
        rw [Function.comp_apply, Bool.eq_iff_iff, Bool.not_eq_true', decide_eq_true_eq,
          ← Bool.not_eq_true, List.any_eq_true]
        constructor
        · intro hnot
          by_contra hless
          have hreceived : f.dir.queue.received ≤ r.offset := by
            have hmem := List.mem_map_of_mem (f := Record.key) hr
            rw [h.records] at hmem
            exact of_decide_eq_true (List.mem_filter.mp hmem).2
          exact hnot ⟨r, List.mem_filter.mpr ⟨hr, decide_eq_true ⟨hreceived, by omega⟩⟩,
            beq_self_eq_true _⟩
        · rintro hge ⟨other, hother, htoken⟩
          obtain ⟨hmem, hbounds⟩ := List.mem_filter.mp hother
          rw [decide_eq_true_eq] at hbounds
          have hsame := List.inj_on_of_nodup_map h.record_nodup hmem hr (beq_iff_eq.mp htoken)
          rw [hsame] at hbounds
          omega
      extent := fun r hr => h.extent r (hkept r hr)
      origin := fun r hr => h.origin r (hkept r hr)
      covered := fun i sender hi => by
        refine Iff.trans ?_ (covered_filter hi).symm
        have hi' : f.dir.queue.received + amount ≤ i := hi
        exact h.covered i sender (by omega)
      consumed := hconsumed
      received := hbound
      receiving := nofun
      history :=
        { window := fun d hd => by
            rcases List.mem_append.mp hd with hd | hd
            · exact h.history.window d hd
            · cases List.mem_singleton.mp hd
              exact ⟨hbound, hreceives.2 rfl⟩
          rights := fun d hd => by
            rcases List.mem_append.mp hd with hd | hd
            · exact h.history.rights d hd
            · cases List.mem_singleton.mp hd
              exact h.delivered _
          bytes := by
            rw [consuming, List.filter_append, List.flatMap_append]
            refine (congrArg (· ++ _) h.history.bytes).trans ?_
            show List.range f.dir.queue.received ++ (List.range' _ _ ++ []) = List.range _
            rw [List.append_nil, Nat.add_sub_cancel_left, List.range_eq_range',
              List.range_eq_range']
            have happend := List.range'_append_1 (s := 0) (m := f.dir.queue.received) (n := amount)
            rwa [Nat.zero_add] at happend
          once := by
            rw [consuming, List.filter_append, List.flatMap_append]
            refine (congrArg (· ++ _) h.history.once).trans ?_
            rw [filter_within h.sorted (Nat.zero_le f.dir.queue.received)
              (Nat.le_add_right _ amount)]
            refine congrArg _ ?_
            show List.map Record.key _ ++ [] = _
            rw [List.append_nil, h.delivered] } }

theorem inv_commit : f.commit.Inv := by
  unfold commit
  dsimp only
  split
  · next amount hreceiving => exact inv_peeked h hreceiving
  · next amount hreceiving => exact inv_received h hreceiving
  · exact h

end Commit

/-! ## Every run -/

variable {f : Stream}

theorem inv_step (h : f.Inv) {event : Event} (hroom : Room f event) : (step f event).Inv := by
  cases event with
  | send m hstream => exact inv_send h hstream hroom
  | write count => exact inv_write h count
  | sent error quota => exact inv_sent h error quota
  | inspect peek len => exact inv_inspect h peek len
  | limit => exact inv_limit h
  | take => exact inv_take h
  | fail => exact inv_fail h
  | commit => exact inv_commit h

theorem inv_start (reader writer : Bool) : (start reader writer).Inv where
  sound :=
    { wellFormed :=
        { sent := Nat.two_pow_pos 64
          received := Nat.two_pow_pos 64
          record := nofun
          filter := fun _ => rfl
          snapshot := rfl
          ordered := ⟨fun range hrange => (by cases hrange), List.Pairwise.nil⟩
          stop := nofun
          captured := nofun
          size := by
            rw [Queue.length_encode]
            cases reader <;> cases writer <;> decide }
      start := nofun
      fits := nofun
      stop := nofun }
  accepted := ⟨Nat.zero_le _, nofun⟩
  sending s hs := by cases hs
  idle _ := rfl
  records := rfl
  pinned := rfl
  sorted := List.Pairwise.nil
  nodup := List.nodup_nil
  before a ha := by cases ha
  first a ha := by cases ha
  flight i b _ hb := by cases hb
  extent r hr := by cases hr
  origin r hr := by cases hr
  covered i sender _ := by
    refine iff_of_false nofun ?_
    rintro ⟨range, hrange, -⟩
    cases hrange
  consumed := rfl
  received := le_rfl
  receiving r hr := by cases hr
  history :=
    { window := nofun
      rights := nofun
      bytes := rfl
      once := rfl }

theorem Inv.idle_stop (h : f.Inv) (hidle : f.dir.sending = none) :
    ∀ range ∈ f.dir.queue.credentials, range.stop ≤ f.bytes.length := by
  rw [h.idle hidle]
  refine h.sound.stop h.accepted fun s hs => ?_
  rw [hidle] at hs
  cases hs

theorem Inv.leavesNothing (h : f.Inv) {s : Sending} (hs : f.dir.sending = some s)
    (hfailed : f.bytes.length = s.start) (error : Int) (quota : Bool) :
    (f.sent error quota).LeavesNothing s := by
  have hnext : f.sent error quota = { f with
        dir := f.dir.sent (.error error) quota
        attached := f.attached.filter fun a => !s.message.carries a.2
        pinned := f.pinned.filter fun token => !s.message.carries token } := by
    rw [sent, hs]
    exact if_pos hfailed
  have hinv := inv_sent_error h hs hfailed error quota
  obtain ⟨blocked, hdir⟩ := direction_sent_error h.sound h.accepted hs error quota
  have hidle : (f.dir.sent (.error error) quota).sending = none := by rw [hdir]
  rw [hnext]
  refine ⟨hidle, fun r hr => ?_, fun token htoken => ?_, fun range hrange => ?_⟩
  · dsimp only at hr
    rw [hdir] at hr
    exact Bool.not_eq_true' _ ▸ (List.mem_filter.mp hr).2
  · exact Bool.not_eq_true' _ ▸ (List.mem_filter.mp htoken).2
  · rw [← hfailed]
    exact hinv.idle_stop hidle range hrange

theorem Inv.lawful (h : f.Inv) : f.Lawful where
  history := h.history
  nodup := h.nodup
  records := h.records
  pinned := h.pinned
  ordered := h.sound.wellFormed.ordered
  covered := h.covered
  idle hidle := by
    refine ⟨h.idle hidle, fun a ha => ?_, h.idle_stop hidle⟩
    rw [h.idle hidle]
    rcases h.before a ha with hless | ⟨-, s, hs, -⟩
    · exact hless
    · rw [hidle] at hs
      cases hs
  failed s hs hfailed error quota := h.leavesNothing hs hfailed error quota

/-- In every run whose sends find room, rights and credentials go with the bytes they were
sent with. -/
theorem stream_lawful (reader writer : Bool) (events : List Event)
    (h : EveryStep step Room (start reader writer) events) :
    EveryState step Lawful (start reader writer) events := by
  have hinv : EveryState step Inv (start reader writer) events :=
    EveryState.of_preserved (fun f event hf hroom => inv_step hf hroom) (inv_start reader writer) h
  exact hinv.mono fun f hf => hf.lawful

theorem root_captured : (⟨[(1, 1)], 0, 0⟩ : Sender).Captured ∧
    ∀ sender : Sender, none = some sender → sender.Captured :=
  ⟨⟨by simp, by simp⟩, fun _ hsender => by cases hsender⟩

theorem ten_fits : 10 < 2 ^ 64 := by omega

/-- Ten bytes with credentials, of which a receive takes four. -/
def partlyRead : List Event :=
  [.send ⟨false, 10, ten_fits, none, none, ⟨[(1, 1)], 0, 0⟩, root_captured⟩ rfl,
    .write 10, .sent 0 true, .inspect false 4, .limit, .take, .commit]

theorem partlyRead_room : EveryStep step Room (start true false) partlyRead :=
  ⟨⟨fun _ => ⟨fun hsome => (by cases hsome), fun sender hsender => by cases hsender; decide⟩,
    fun _ => ⟨by show 0 + 10 < 2 ^ 64; omega, nofun⟩⟩,
    trivial, trivial, trivial, trivial, trivial, trivial, trivial⟩

/-- The run of a stream that is read in part. -/
theorem stream_lawful_partlyRead : EveryState step Lawful (start true false) partlyRead :=
  stream_lawful true false partlyRead partlyRead_room

/-- The ranges are the bytes that were sent and not received. -/
def CoversUnread (f : Stream) : Prop :=
  ∀ i, (∃ sender, Covered f.dir.queue.credentials i sender) ↔
    f.dir.queue.received ≤ i ∧ i < f.dir.queue.sent

/-- A range that is read in part still starts where it started. -/
theorem covers_read_bytes : ¬ ∀ (reader writer : Bool) (events : List Event),
      EveryStep step Room (start reader writer) events →
        EveryState step (fun f => f.dir.sending = none → f.CoversUnread)
          (start reader writer) events := by
  intro h
  have hlast := (h true false partlyRead partlyRead_room).last
  have hend : (run step (start true false) partlyRead).dir.sending = none ∧
      (run step (start true false) partlyRead).dir.queue.received = 4 ∧
      (run step (start true false) partlyRead).dir.queue.credentials =
        [⟨0, 10, ⟨[(1, 1)], 0, 0⟩⟩] := by decide +kernel
  obtain ⟨hidle, hreceived, hcredentials⟩ := hend
  have hcovered := (hlast hidle 0).mp
    ⟨_, ⟨0, 10, ⟨[(1, 1)], 0, 0⟩⟩, by rw [hcredentials]; exact List.mem_singleton_self _,
      le_rfl, by decide, rfl⟩
  rw [hreceived] at hcovered
  omega

end Stream

end Kinakaze.Unix
