import Kinakaze.Unix.Ancillary

/-!
# When a published queue reads back

* `WellFormed`: what every publication keeps: numbers that fit their words, ordered
  credential ranges, captured senders, no more than 16 MiB.
* `Accepted`: the counts that the reader limits.
-/

namespace Kinakaze.Unix

open Library

/-- The ranges are not empty, and each ends before the next begins. -/
structure Ordered (credentials : List CredentialRange) : Prop where
  nonempty : ∀ range ∈ credentials, range.start < range.stop
  sorted : credentials.Pairwise fun a b => a.stop ≤ b.start

structure Queue.WellFormed (q : Queue) : Prop where
  sent : q.sent < 2 ^ 64
  received : q.received < 2 ^ 64
  record : ∀ r ∈ q.records, r.offset < 2 ^ 64 ∧ r.length < 2 ^ 64 ∧ r.fds.length ≤ 253
  filter : q.readerFilter = 0 → q.readerFilterSnapshot = []
  snapshot : validEncoding q.readerFilterSnapshot = true
  ordered : Ordered q.credentials
  stop : ∀ range ∈ q.credentials, range.stop < 2 ^ 64
  captured : ∀ range ∈ q.credentials, range.sender.Captured
  size : q.encode.length ≤ 16 * 1024 * 1024

/-- The counts that the reader limits. -/
structure Queue.Accepted (q : Queue) : Prop where
  records : q.records.length ≤ 253
  namespaces : ∀ range ∈ q.credentials, range.sender.numbers.length ≤ 32

/-! ## Sizes -/

theorem length_write (d : Descriptor) :
    d.write.length = 56 + d.metadata.length + d.anonymous.length := by
  simp only [Descriptor.write, List.length_append, length_wordBytes, length_shortBytes,
    length_countedBytes]
  omega

theorem Record.length_write (r : Record) :
    r.write.length = 56 + (r.fds.flatMap Descriptor.write).length := by
  simp only [Record.write, List.length_append, length_wordBytes, length_numberBytes,
    length_shortBytes]

theorem Sender.length_write (s : Sender) : s.write.length = 24 + s.numbers.length * 16 := by
  have hnumbers : ∀ numbers : List (BitVec 64 × BitVec 32),
      (numbers.flatMap Sender.writeNumber).length = numbers.length * 16 := by
    intro numbers
    induction numbers with
    | nil => rfl
    | cons entry numbers ih =>
      rw [List.flatMap_cons, List.length_append, ih, List.length_cons, Nat.succ_mul,
        Sender.writeNumber, List.length_append, length_wordBytes, length_shortBytes]
      omega
  simp only [Sender.write, List.length_append, length_shortBytes, length_numberBytes, hnumbers]

theorem CredentialRange.length_write (r : CredentialRange) :
    r.write.length = 40 + r.sender.numbers.length * 16 := by
  simp only [CredentialRange.write, List.length_append, length_numberBytes, r.sender.length_write]
  omega

/-! ## The parts -/

theorem reads_descriptor {d : Descriptor} (hmetadata : d.metadata.length < 2 ^ 64)
    (hanonymous : d.anonymous.length < 2 ^ 64) : Reads Descriptor.read d.write d := by
  simp only [Descriptor.write, List.append_assoc]
  exact (reads_word EIO _).bind <| (reads_word EIO _).bind <|
    (reads_truncated EIO (by decide) _).bind <| (reads_truncated EIO (by decide) _).bind <|
    (reads_word EIO _).bind <| (reads_counted EIO hmetadata).bind <|
    (reads_counted EIO hanonymous).map _

theorem reads_u32 (value : BitVec 32) : Reads readU32 (shortBytes value) value := by
  have hnat : (value.setWidth 64).toNat = value.toNat := by
    rw [BitVec.toNat_setWidth, Nat.mod_eq_of_lt (by have := value.isLt; omega)]
  have hrefuse : decide (2 ^ 32 ≤ (value.setWidth 64).toNat) = false := by
    rw [hnat, decide_eq_false_iff_not]
    have := value.isLt
    omega
  have hback : (value.setWidth 64).setWidth 32 = value := by
    rw [BitVec.setWidth_setWidth_of_le _ (by decide), BitVec.setWidth_eq]
  intro rest
  rw [readU32, shortBytes, (reads_word EIO _).run, run_refuse EIO hrefuse, hback]
  rfl

theorem reads_record {r : Record} (hoffset : r.offset < 2 ^ 64) (hlength : r.length < 2 ^ 64)
    (hfds : r.fds.length ≤ 253)
    (hsize : ∀ d ∈ r.fds, d.metadata.length < 2 ^ 64 ∧ d.anonymous.length < 2 ^ 64) :
    Reads Record.read r.write r := by
  have hrefuse : decide (r.fds.length > 253) = false := by
    rw [decide_eq_false_iff_not]
    omega
  intro rest
  simp only [Record.write, List.append_assoc]
  rw [Record.read, (reads_number EIO hoffset).run, (reads_number EIO hlength).run,
    (reads_u32 r.keeper).run, (reads_word EIO r.created).run, (reads_word EIO r.rpc).run,
    (reads_word EIO r.token).run, (reads_number EIO (by omega)).run, run_refuse EIO hrefuse]
  exact ((Reads.iterate_push r.fds fun d hd =>
    reads_descriptor (hsize d hd).1 (hsize d hd).2).map fun fds => { r with fds }) rest

theorem reads_senderNumber {entry : BitVec 64 × BitVec 32} (h : entry.1 ≠ 0 ∧ entry.2 ≠ 0) :
    Reads Sender.readNumber (Sender.writeNumber entry) entry := by
  have hrefuse : (entry.1 == 0 || entry.2 == 0) = false := by
    rw [Bool.or_eq_false_iff]
    exact ⟨beq_false_of_ne h.1, beq_false_of_ne h.2⟩
  intro rest
  rw [Sender.readNumber, Sender.writeNumber, List.append_assoc, (reads_word EIO _).run,
    (reads_u32 _).run, run_refuse EIO hrefuse]
  rfl

/-- The part of a sender's reader that comes before the limit. -/
theorem run_senderRead (s : Sender) (hcount : s.numbers.length < 2 ^ 64) (rest : List (BitVec 8)) :
    Sender.read (s.write ++ rest) =
      (refuse EIO (s.numbers.length == 0 || decide (s.numbers.length > 32) ||
        decide (s.numbers.length > (s.numbers.flatMap Sender.writeNumber ++ rest).length / 16))
        >>= fun _ => do
          let numbers ← iterate (fun numbers => do
            let entry ← Sender.readNumber
            pure (numbers ++ [entry])) s.numbers.length []
          pure { numbers, uid := s.uid, gid := s.gid })
        (s.numbers.flatMap Sender.writeNumber ++ rest) := by
  simp only [Sender.write, List.append_assoc]
  rw [Sender.read, (reads_u32 s.uid).run, (reads_u32 s.gid).run,
    (reads_number EIO hcount).run, run_remaining]

theorem reads_sender {s : Sender} (hcaptured : s.Captured) (hcount : s.numbers.length ≤ 32) :
    Reads Sender.read s.write s := by
  intro rest
  have hlength : s.numbers.length * 16 ≤ (s.numbers.flatMap Sender.writeNumber).length :=
    mul_length_le_length_flatMap fun entry _ => by
      rw [Sender.writeNumber, List.length_append, length_wordBytes, length_shortBytes]
  have hpos : s.numbers.length ≠ 0 := fun h =>
    hcaptured.nonempty (List.length_eq_zero_iff.mp h)
  have hrefuse : (s.numbers.length == 0 || decide (s.numbers.length > 32) ||
      decide (s.numbers.length >
        (s.numbers.flatMap Sender.writeNumber ++ rest).length / 16)) = false := by
    rw [Bool.or_eq_false_iff, Bool.or_eq_false_iff, decide_eq_false_iff_not,
      decide_eq_false_iff_not, List.length_append]
    refine ⟨⟨beq_false_of_ne hpos, by omega⟩, by omega⟩
  rw [run_senderRead s (by omega), run_refuse EIO hrefuse]
  exact ((Reads.iterate_push s.numbers fun entry hentry =>
    reads_senderNumber (hcaptured.nonzero entry hentry)).map
      fun numbers => ({ s with numbers } : Sender)) rest

theorem senderRead_error {s : Sender} (hcount : s.numbers.length < 2 ^ 64)
    (hmany : 32 < s.numbers.length) (rest : List (BitVec 8)) :
    Sender.read (s.write ++ rest) = .error EIO := by
  rw [run_senderRead s hcount]
  refine run_refuse_error EIO ?_ _ _
  rw [Bool.or_eq_true, Bool.or_eq_true]
  exact .inl (.inr (decide_eq_true hmany))

variable {front back : List CredentialRange} {range : CredentialRange}

theorem run_readRange (hordered : Ordered (front ++ range :: back)) (hstop : range.stop < 2 ^ 64)
    (rest : List (BitVec 8)) :
    readRange front (range.write ++ rest) = (Sender.read >>= fun sender =>
        (pure (front ++ [⟨range.start, range.stop, sender⟩]) :
          Parser Int (List CredentialRange))) (range.sender.write ++ rest) := by
  have hmem : range ∈ front ++ range :: back := by simp
  have hrange := hordered.nonempty range hmem
  have hrefuse : (decide (range.start ≥ range.stop) ||
      front.getLast?.any fun last => decide (last.stop > range.start)) = false := by
    rw [Bool.or_eq_false_iff, decide_eq_false_iff_not, Option.any_eq_false]
    refine ⟨by omega, fun last hlast => ?_⟩
    have hbefore := (List.pairwise_append.mp hordered.sorted).2.2 last
      (List.mem_of_getLast? hlast) range List.mem_cons_self
    rw [decide_eq_false_iff_not]
    omega
  simp only [CredentialRange.write, List.append_assoc]
  rw [readRange, (reads_number EIO (by omega)).run, (reads_number EIO hstop).run,
    run_refuse EIO hrefuse]

theorem reads_range (hordered : Ordered (front ++ range :: back)) (hstop : range.stop < 2 ^ 64)
    (hcaptured : range.sender.Captured) (hcount : range.sender.numbers.length ≤ 32) :
    Reads (readRange front) range.write (front ++ [range]) := by
  intro rest
  rw [run_readRange hordered hstop, (reads_sender hcaptured hcount).run]
  rfl

theorem Ordered.prefix (h : Ordered (front ++ back)) : Ordered front :=
  ⟨fun range hrange => h.nonempty range (List.mem_append_left _ hrange),
    (List.pairwise_append.mp h.sorted).1⟩

theorem reads_async (a : AsyncOwner) : Reads AsyncOwner.read a.write a :=
  (reads_signed EIO a.owner).bind ((reads_flag EIO a.enabled).map _)

theorem reads_writeAsync (q : Queue) :
    Reads readAsync q.writeAsync (q.readerAsync, q.writerAsync, q.writerBlocked) :=
  (reads_async _).bind ((reads_async _).bind ((reads_flag EIO _).map _))

/-! ## The whole -/

theorem Queue.encode_eq (q : Queue) :
    q.encode = numberBytes q.sent ++ (numberBytes q.received ++ (flagBytes q.readClosed ++
      (flagBytes q.writeClosed ++ (numberBytes q.records.length ++
        (q.records.flatMap Record.write ++ (q.writeAsync ++ q.writeCredentials)))))) := by
  rw [Queue.encode]
  split
  · next h =>
    obtain ⟨hrecords, hfilter, hreader, hwriter, hcredentials⟩ := h
    have hnone : q.writeCredentials = [] := by
      rw [Queue.writeCredentials, if_neg]
      simp [hfilter, hreader, hwriter, hcredentials]
    rw [hnone, hrecords, List.append_nil, List.flatMap_nil, List.nil_append, List.length_nil]
  · rfl

theorem Queue.length_encode (q : Queue) :
    q.encode.length = 80 + (q.records.flatMap Record.write).length + q.writeCredentials.length := by
  simp only [q.encode_eq, Queue.writeAsync, AsyncOwner.write, List.length_append,
    length_numberBytes, length_flagBytes, length_wordBytes]
  omega

theorem Queue.decode_encode (q : Queue) : q.read = Queue.reader.run' q.encode := by
  rw [Queue.read, Queue.decode, if_neg]
  rw [List.isEmpty_iff, ← List.length_eq_zero_iff, q.length_encode]
  omega

theorem Queue.writeAsync_ne_nil (q : Queue) : q.writeAsync ≠ [] := by
  intro h
  have hlength := congrArg List.length h
  simp only [Queue.writeAsync, AsyncOwner.write, List.length_append, length_wordBytes,
    length_flagBytes, List.length_nil] at hlength
  omega

theorem ne_nil_of_length {bytes : List (BitVec 8)} (h : 0 < bytes.length) : bytes ≠ [] :=
  fun hnil => by rw [hnil] at h; exact absurd h (Nat.lt_irrefl 0)

/-! ## What fits 16 MiB fits a word -/

section Sizes

variable {q : Queue} (h : q.WellFormed)

include h

theorem Queue.WellFormed.records_size :
    (q.records.flatMap Record.write).length ≤ 16 * 1024 * 1024 := by
  have hsize := h.size
  rw [q.length_encode] at hsize
  omega

theorem Queue.WellFormed.records_length : q.records.length < 2 ^ 64 := by
  have hrecords := h.records_size
  have hmul : q.records.length * 56 ≤ (q.records.flatMap Record.write).length :=
    mul_length_le_length_flatMap fun r _ => by rw [r.length_write]; omega
  omega

theorem Queue.WellFormed.descriptor {r : Record} (hr : r ∈ q.records) {d : Descriptor}
    (hd : d ∈ r.fds) : d.metadata.length < 2 ^ 64 ∧ d.anonymous.length < 2 ^ 64 := by
  have hrecords := h.records_size
  have hrecord : r.write.length ≤ (q.records.flatMap Record.write).length :=
    length_le_length_flatMap hr
  have hwrite : d.write.length ≤ (r.fds.flatMap Descriptor.write).length :=
    length_le_length_flatMap hd
  rw [r.length_write] at hrecord
  rw [length_write] at hwrite
  constructor <;> omega

theorem Queue.WellFormed.credentials_size :
    (q.credentials.flatMap CredentialRange.write).length ≤ 16 * 1024 * 1024 := by
  have hsize := h.size
  rw [q.length_encode] at hsize
  by_cases hnil : q.credentials = []
  · rw [hnil, List.flatMap_nil, List.length_nil]
    omega
  · rw [Queue.writeCredentials, if_pos (.inr (.inr (.inr hnil)))] at hsize
    simp only [List.length_append] at hsize
    omega

theorem Queue.WellFormed.credentials_length : q.credentials.length < 2 ^ 64 := by
  have hcredentials := h.credentials_size
  have hmul : q.credentials.length * 40 ≤ (q.credentials.flatMap CredentialRange.write).length :=
    mul_length_le_length_flatMap fun range _ => by rw [range.length_write]; omega
  omega

theorem Queue.WellFormed.numbers_length
    (hrange : range ∈ q.credentials) : range.sender.numbers.length < 2 ^ 64 := by
  have hcredentials := h.credentials_size
  have hwrite : range.write.length ≤ (q.credentials.flatMap CredentialRange.write).length :=
    length_le_length_flatMap hrange
  rw [range.length_write] at hwrite
  omega

theorem Queue.WellFormed.snapshot_length : q.readerFilterSnapshot.length < 2 ^ 64 := by
  have hsize := h.size
  rw [q.length_encode] at hsize
  by_cases hzero : q.readerFilter = 0
  · rw [h.filter hzero]
    decide
  · rw [Queue.writeCredentials, if_pos (.inl hzero)] at hsize
    simp only [List.length_append, length_countedBytes] at hsize
    omega

end Sizes

/-! ## The last part -/

section Credentials

variable {q : Queue} (h : q.WellFormed)

include h

theorem run_readCredentials (rest : List (BitVec 8)) :
    readCredentials (flagBytes q.readerPasscred ++ (flagBytes q.writerPasscred ++
      (numberBytes q.credentials.length ++
        (q.credentials.flatMap CredentialRange.write ++ rest)))) =
      (iterate readRange q.credentials.length [] >>= fun credentials =>
        (pure (q.readerPasscred, q.writerPasscred, credentials) :
          Parser Int (Bool × Bool × List CredentialRange)))
        (q.credentials.flatMap CredentialRange.write ++ rest) := by
  have hleast : q.credentials.length * 56 ≤ (q.credentials.flatMap CredentialRange.write).length :=
    mul_length_le_length_flatMap fun range hrange => by
      have hpos : range.sender.numbers.length ≠ 0 := fun hzero =>
        (h.captured range hrange).nonempty (List.length_eq_zero_iff.mp hzero)
      rw [range.length_write]
      omega
  have hrefuse : decide (q.credentials.length >
      (q.credentials.flatMap CredentialRange.write ++ rest).length / 56) = false := by
    rw [decide_eq_false_iff_not, List.length_append]
    omega
  rw [readCredentials, (reads_flag EIO _).run, (reads_flag EIO _).run,
    (reads_number EIO h.credentials_length).run, run_remaining, run_refuse EIO hrefuse]

theorem iterate_readRange (hcount : ∀ range ∈ q.credentials, range.sender.numbers.length ≤ 32) :
    Reads (iterate readRange q.credentials.length [])
      (q.credentials.flatMap CredentialRange.write) q.credentials :=
  Reads.iterate (g := id) q.credentials fun front range back hsplit => by
    have hmem : range ∈ q.credentials := by rw [hsplit]; simp
    exact reads_range (hsplit ▸ h.ordered) (h.stop range hmem) (h.captured range hmem)
      (hcount range hmem)

theorem iterate_readRange_error (hmany : ∃ range ∈ q.credentials, 32 < range.sender.numbers.length)
    (rest : List (BitVec 8)) :
    iterate readRange q.credentials.length []
      (q.credentials.flatMap CredentialRange.write ++ rest) = .error EIO := by
  have hsome : (q.credentials.find? fun range =>
      decide (32 < range.sender.numbers.length)).isSome = true := by
    rw [List.find?_isSome]
    simpa using hmany
  obtain ⟨range, hfind⟩ := Option.isSome_iff_exists.mp hsome
  obtain ⟨hbad, front, back, hsplit, hfront⟩ := List.find?_eq_some_iff_append.mp hfind
  have hordered : Ordered (front ++ range :: back) := hsplit ▸ h.ordered
  have hmem : range ∈ q.credentials := by rw [hsplit]; simp
  rw [hsplit]
  refine iterate_error (g := id) EIO ?_ ?_ rest
  · intro before next after hbefore
    have hnext : next ∈ front := by rw [hbefore]; simp
    have hnextMem : next ∈ q.credentials := by
      rw [hsplit]
      exact List.mem_append_left _ hnext
    have hgood := hfront next hnext
    rw [Bool.not_eq_true', decide_eq_false_iff_not] at hgood
    have hpart : Ordered (before ++ next :: after) := hbefore ▸ hordered.prefix
    refine reads_range hpart (h.stop next hnextMem) (h.captured next hnextMem) (by omega)
  · intro rest
    rw [decide_eq_true_eq] at hbad
    show readRange front _ = _
    rw [run_readRange hordered (h.stop range hmem)]
    exact run_error EIO (senderRead_error (h.numbers_length hmem) hbad rest) _

end Credentials

/-! ## The whole -/

section Whole

variable {q : Queue} (h : q.WellFormed)

include h

/-- The fields that stand before the options. -/
abbrev Queue.head (q : Queue) : Queue where
  sent := q.sent
  received := q.received
  readClosed := q.readClosed
  writeClosed := q.writeClosed
  records := q.records

theorem run_reader :
    Queue.reader q.encode = (refuse EIO (decide (q.records.length > 253)) >>= fun _ => do
        let records ← iterate (fun records => do
          let r ← Record.read
          pure (records ++ [r])) q.records.length []
        Queue.readRest { q.head with records })
        (q.records.flatMap Record.write ++ (q.writeAsync ++ q.writeCredentials)) := by
  rw [q.encode_eq, Queue.reader, (reads_number EIO h.sent).run, (reads_number EIO h.received).run,
    (reads_flag EIO _).run, (reads_flag EIO _).run, (reads_number EIO h.records_length).run]

theorem iterate_readRecord : Reads (iterate (fun records => do
      let r ← Record.read
      pure (records ++ [r])) q.records.length [])
      (q.records.flatMap Record.write) q.records :=
  Reads.iterate_push q.records fun r hr =>
    reads_record (h.record r hr).1 (h.record r hr).2.1 (h.record r hr).2.2
      fun _ hd => h.descriptor hr hd

theorem run_readRest : Queue.readRest q.head (q.writeAsync ++ q.writeCredentials) =
      if q.writeCredentials = [] then .ok (q, [])
      else (iterate readRange q.credentials.length [] >>= fun credentials => do
          finish EIO
          pure { q with credentials }) (q.credentials.flatMap CredentialRange.write) := by
  rw [Queue.readRest, ((reads_writeAsync q).orAtEnd _ q.writeAsync_ne_nil).run]
  have hvalid : (!validEncoding q.readerFilterSnapshot) = false := by rw [h.snapshot]; rfl
  by_cases hcondition : q.readerFilter ≠ 0 ∨ q.readerPasscred ∨ q.writerPasscred ∨
      q.credentials ≠ []
  · have hbytes : q.writeCredentials = wordBytes q.readerFilter ++
        (countedBytes q.readerFilterSnapshot ++ (flagBytes q.readerPasscred ++
          (flagBytes q.writerPasscred ++ (numberBytes q.credentials.length ++
            (q.credentials.flatMap CredentialRange.write ++ []))))) := by
      rw [Queue.writeCredentials, if_pos hcondition, List.append_nil]
    have hne : q.writeCredentials ≠ [] := ne_nil_of_length (by
      rw [hbytes, List.length_append, length_wordBytes]
      omega)
    rw [if_neg hne, hbytes,
      ((reads_word EIO q.readerFilter).orAtEnd 0 (ne_nil_of_length (by simp))).run,
      ((reads_counted EIO h.snapshot_length).orAtEnd [] (ne_nil_of_length (by
        rw [length_countedBytes]
        omega))).run,
      run_refuse EIO hvalid, run_bind, orAtEnd_of_ne_nil _ _ (ne_nil_of_length (by
        rw [List.length_append, length_flagBytes]
        omega)),
      run_readCredentials h, run_bind, List.append_nil, run_bind]
    cases iterate readRange q.credentials.length []
      (q.credentials.flatMap CredentialRange.write) <;> rfl
  · have hnil : q.writeCredentials = [] := by rw [Queue.writeCredentials, if_neg hcondition]
    obtain ⟨hfilter, hreader, hwriter, hcredentials⟩ : q.readerFilter = 0 ∧
        q.readerPasscred = false ∧ q.writerPasscred = false ∧ q.credentials = [] := by
      simpa using hcondition
    have hsnapshot := h.filter hfilter
    have hq : { q with
        readerFilter := 0
        readerFilterSnapshot := []
        readerPasscred := false
        writerPasscred := false
        credentials := [] } = q := by
      clear h hvalid hcondition hnil
      cases q
      simp_all
    rw [hsnapshot] at hvalid
    rw [hnil, if_pos rfl, run_orAtEnd_nil, run_orAtEnd_nil, run_refuse EIO hvalid,
      run_orAtEnd_nil, run_finish_nil]
    exact congrArg (fun q => Except.ok (q, [])) hq

theorem read_of_accepted (haccepted : q.Accepted) : q.read = .ok q := by
  have hrefuse : decide (q.records.length > 253) = false := by
    rw [decide_eq_false_iff_not]
    have := haccepted.records
    omega
  rw [q.decode_encode, StateT.run', run_reader h, run_refuse EIO hrefuse,
    (iterate_readRecord h).run,
    show ({ q.head with records := q.records } : Queue) = q.head from rfl, run_readRest h]
  split
  · rfl
  have hread := (iterate_readRange h haccepted.namespaces).run (fun credentials => do
    finish EIO
    pure { q with credentials }) []
  rw [List.append_nil] at hread
  rw [hread]
  rfl

theorem read_of_not_accepted (hnot : ¬ q.Accepted) : q.read = .error EIO := by
  rw [q.decode_encode, StateT.run', run_reader h]
  by_cases hrecords : q.records.length ≤ 253
  · have hrefuse : decide (q.records.length > 253) = false := by
      rw [decide_eq_false_iff_not]
      omega
    have hmany : ∃ range ∈ q.credentials, 32 < range.sender.numbers.length := by
      by_contra hnone
      exact hnot ⟨hrecords, by simpa using hnone⟩
    have hne : q.writeCredentials ≠ [] := by
      obtain ⟨range, hrange, -⟩ := hmany
      rw [Queue.writeCredentials, if_pos (.inr (.inr (.inr (List.ne_nil_of_mem hrange))))]
      exact ne_nil_of_length (by rw [List.length_append, length_wordBytes]; omega)
    have herror := iterate_readRange_error h hmany []
    rw [List.append_nil] at herror
    rw [run_refuse EIO hrefuse, (iterate_readRecord h).run,
      show ({ q.head with records := q.records } : Queue) = q.head from rfl, run_readRest h,
      if_neg hne, run_error EIO herror]
    rfl
  · have hrefuse : decide (q.records.length > 253) = true := by
      rw [decide_eq_true_eq]
      omega
    rw [run_refuse_error EIO hrefuse]
    rfl

theorem read_eq_iff : q.read = .ok q ↔ q.Accepted := by
  refine ⟨fun hread => ?_, read_of_accepted h⟩
  by_contra hnot
  rw [read_of_not_accepted h hnot] at hread
  cases hread

theorem read_ok {next : Queue} (hread : q.read = .ok next) : next = q := by
  by_cases haccepted : q.Accepted
  · rw [read_of_accepted h haccepted] at hread
    cases hread
    rfl
  · rw [read_of_not_accepted h haccepted] at hread
    cases hread

end Whole

end Kinakaze.Unix
