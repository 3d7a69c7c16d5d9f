import Kinakaze.Fifo.Channel
import Kinakaze.Library.Run

/-!
# The channel is a queue of bytes

Whatever the order of steps, the bytes returned and the bytes queued are the
bytes accepted, and each write call has had a prefix of its buffer accepted,
as long as no call ends in an error after its bytes were committed.
-/

namespace Kinakaze.Fifo

open Library

/-- A write call: a prefix of its buffer was accepted, a short buffer in one step
or not at all, and the call returns the number of bytes accepted. -/
structure Call.Conforms (call : Call) : Prop where
  taken : call.taken = call.buffer.take call.written
  bound : call.written ≤ call.buffer.length
  atomic : call.buffer.length ≤ PIPE_BUF →
    call.written = 0 ∧ call.pieces = 0 ∨ call.written = call.buffer.length ∧ call.pieces ≤ 1
  running : call.result = none → call.written ≠ 0 →
    call.written < call.buffer.length ∧ PIPE_BUF < call.buffer.length
  count : ∀ n, call.result = some (.ok n) → n = call.written
  error : ∀ e, call.result = some (.error e) → call.written = 0

structure System.Conforms (s : System) : Prop where
  bounds : s.queue.InBounds CAPACITY
  stream : s.returned ++ s.queue.contents CAPACITY = s.accepted
  calls : ∀ id call, s.calls id = some call → call.Conforms

/-- The step's locked part reaches the queue. -/
def Turn.Enters (turn : Turn) (may : Endpoint → Bool) (row : Endpoint) : Prop :=
  turn.lock = none ∧ turn.row = some row ∧ may row = true

/-- A step that has taken bytes from the queue, or whose call has had bytes
accepted, does not end in an error. -/
def System.Reports (s : System) : Event → Prop
  | .read size turn => ∀ row, turn.Enters Endpoint.read row → size ≠ 0 → s.queue.length ≠ 0 →
      turn.changed = none
  | .begin _ _ => True
  | .write id turn => ∀ call, s.calls id = some call → call.result = none → turn.lock = none →
      (call.written ≠ 0 → ∃ row, turn.Enters Endpoint.write row) ∧
      ∀ row, turn.Enters Endpoint.write row → call.buffer ≠ [] → turn.readers ≠ 0 →
        if mayCopy call.buffer call.written s.queue then turn.changed = none
        else row.nonblock = false → call.written ≠ 0 → turn.register = none

variable {s : System} {turn : Turn} {size : Nat}

/-! ## Reads -/

theorem pop_conforms (turn : Turn) (h : s.Conforms) (hsize : size ≠ 0)
    (hlength : s.queue.length ≠ 0) :
    System.Conforms { s with
      queue := (s.queue.pop CAPACITY (min size s.queue.length)).2
      returned := s.returned ++ (match turn.changed with
        | some error => Outcome.failed error
        | none => .returned (s.queue.pop CAPACITY (min size s.queue.length)).1).bytes } ↔
      turn.changed = none := by
  have hcount : min size s.queue.length ≤ s.queue.length := Nat.min_le_right _ _
  have hcontents := RingBuffer.contents_pop h.bounds hcount
  have hbytes := RingBuffer.pop_fst h.bounds hcount
  have hbounds := RingBuffer.pop_inBounds h.bounds hcount
  cases hchanged : turn.changed with
  | none =>
    refine iff_of_true ⟨hbounds, ?_, h.calls⟩ rfl
    show s.returned ++ (s.queue.pop CAPACITY _).1 ++ (s.queue.pop CAPACITY _).2.contents CAPACITY
      = s.accepted
    rw [hbytes, hcontents, List.append_assoc, List.take_append_drop]
    exact h.stream
  | some error =>
    refine iff_of_false (fun hbad => ?_) (by simp)
    have hstream := hbad.stream
    simp only [Outcome.bytes, List.append_nil] at hstream
    rw [hcontents, ← h.stream] at hstream
    have hlengths := congrArg List.length hstream
    simp only [List.length_append, List.length_drop, RingBuffer.length_contents] at hlengths
    omega

theorem read_conforms (h : s.Conforms) (size : Nat) (turn : Turn) :
    (s.step (.read size turn)).Conforms ↔ s.Reports (.read size turn) := by
  have hkeep : ∀ outcome : Outcome (List Byte), outcome.bytes = [] →
      System.Conforms { s with returned := s.returned ++ outcome.bytes } := by
    intro outcome hbytes
    refine ⟨h.bounds, ?_, h.calls⟩
    rw [hbytes, List.append_nil]
    exact h.stream
  simp only [System.step, System.Reports, Turn.Enters]
  unfold readStep
  cases hlock : turn.lock with
  | some error => exact iff_of_true (hkeep _ rfl) (by simp)
  | none =>
    cases hrow : turn.row with
    | none => exact iff_of_true (hkeep _ rfl) (by simp)
    | some row =>
      dsimp only
      by_cases hread : row.read = false
      · rw [if_pos hread]
        exact iff_of_true (hkeep _ rfl) (by simp [hread])
      rw [if_neg hread]
      by_cases hsize : size = 0
      · rw [if_pos hsize]
        exact iff_of_true (hkeep _ rfl) (by simp [hsize])
      rw [if_neg hsize]
      by_cases hlength : s.queue.length ≠ 0
      · rw [if_pos hlength]
        have hpop := pop_conforms turn h hsize hlength
        have hreports : (∀ row', (none : Option Int) = none ∧ some row = some row' ∧ row'.read = true →
            size ≠ 0 → s.queue.length ≠ 0 → turn.changed = none) ↔ turn.changed = none := by
          refine ⟨fun hall => hall row ⟨rfl, rfl, by simpa using hread⟩ hsize hlength,
            fun hchanged _ _ _ _ => hchanged⟩
        rw [hreports, ← hpop]
        cases turn.changed <;> rfl
      · rw [if_neg hlength]
        refine iff_of_true ?_ fun _ _ _ hne => absurd hne hlength
        split_ifs
        · exact hkeep _ rfl
        · exact hkeep _ rfl
        refine hkeep _ ?_
        unfold registerAndWait
        cases turn.register with
        | some error => rfl
        | none => cases turn.wait <;> rfl

/-! ## Writes -/

variable {call : Call}

theorem length_copied (buffer : List Byte) (written : Nat) (queue : RingBuffer Byte) :
    (copied buffer written queue).length =
      min (CAPACITY - queue.length) (buffer.length - written) := by
  rw [copied, List.length_take, List.length_drop]

variable {queue : RingBuffer Byte}

theorem writeStep_queue (h : queue.InBounds CAPACITY) (buffer : List Byte) (written : Nat)
    (turn : Turn) :
    (writeStep buffer written turn queue).queue.InBounds CAPACITY ∧
      (writeStep buffer written turn queue).queue.contents CAPACITY =
        queue.contents CAPACITY ++ (writeStep buffer written turn queue).accepted := by
  have hidle : queue.InBounds CAPACITY ∧
      queue.contents CAPACITY = queue.contents CAPACITY ++ [] := ⟨h, by simp⟩
  unfold writeStep
  split
  · exact hidle
  · exact hidle
  split_ifs
  · exact hidle
  · exact hidle
  · exact hidle
  · have hroom : (copied buffer written queue).length ≤ CAPACITY - queue.length := by
      rw [length_copied]
      exact Nat.min_le_left _ _
    exact ⟨RingBuffer.push_inBounds h hroom, RingBuffer.contents_push h hroom⟩
  · exact hidle
  · exact hidle

theorem advance_nil (h : call.Conforms) (hrunning : call.result = none) (outcome : Outcome Nat) :
    (call.advance [] outcome).Conforms ↔ (∀ n, outcome.result = some (.ok n) → n = call.written) ∧
        ∀ e, outcome.result = some (.error e) → call.written = 0 := by
  have htaken : call.taken ++ [] = call.buffer.take (call.written + 0) := by
    rw [List.append_nil]
    exact h.taken
  exact ⟨fun hnext => ⟨hnext.count, hnext.error⟩, fun hend =>
    ⟨htaken, h.bound, h.atomic, fun _ => h.running hrunning, hend.1, hend.2⟩⟩

theorem finishShort_ends (written : Nat) (error : Int) :
    (∀ n, (finishShort written error).result = some (.ok n) → n = written) ∧
      ∀ e, (finishShort written error).result = some (.error e) → written = 0 := by
  unfold finishShort
  split_ifs with h
  · refine ⟨fun n hn => ?_, fun e he => ?_⟩
    · cases hn
      rfl
    · cases he
  · refine ⟨fun n hn => ?_, fun e he => by omega⟩
    cases hn

theorem copyStep_conforms (h : call.Conforms) (hrunning : call.result = none)
    (hbuffer : call.buffer ≠ []) (hcopy : mayCopy call.buffer call.written queue) (nonblock : Bool)
    :
    (call.advance (copyStep call.buffer call.written turn nonblock queue).accepted
      (copyStep call.buffer call.written turn nonblock queue).outcome).Conforms ↔
      turn.changed = none := by
  have hlength := length_copied call.buffer call.written queue
  have hpos : 0 < call.buffer.length := List.length_pos_iff.mpr hbuffer
  have hshort : call.written < call.buffer.length := by
    by_cases hwritten : call.written = 0
    · omega
    · exact (h.running hrunning hwritten).1
  obtain ⟨hroom, hmode⟩ := hcopy
  have hcopied : 0 < (copied call.buffer call.written queue).length := by omega
  have hne : copied call.buffer call.written queue ≠ [] := List.length_pos_iff.mp hcopied
  have htaken : call.taken ++ copied call.buffer call.written queue =
      call.buffer.take (call.written + (copied call.buffer call.written queue).length) := by
    rw [h.taken, List.take_add, length_copied, copied]
    congr 1
    rw [List.take_eq_take_iff, List.length_drop]
    omega
  have hbound : call.written + (copied call.buffer call.written queue).length ≤
      call.buffer.length := by omega
  have hatomic : call.buffer.length ≤ PIPE_BUF →
      call.pieces = 0 ∧ call.written + (copied call.buffer call.written queue).length =
        call.buffer.length := by
    intro hsmall
    have hzero : call.written = 0 := by
      by_contra hwritten
      have hlarge := (h.running hrunning hwritten).2
      omega
    rcases h.atomic hsmall with ⟨-, hpieces⟩ | ⟨hfull, -⟩
    · exact ⟨hpieces, by omega⟩
    · omega
  have hpieces : (if copied call.buffer call.written queue = [] then call.pieces
      else call.pieces + 1) = call.pieces + 1 := if_neg hne
  unfold copyStep Call.advance
  dsimp only
  rw [hpieces]
  cases hchanged : turn.changed with
  | some error =>
    refine iff_of_false (fun hbad => ?_) (by simp)
    have hzero := hbad.error error rfl
    dsimp only at hzero
    omega
  | none =>
    refine iff_of_true ⟨htaken, hbound, fun hsmall => ?_, fun hnone _ => ?_, fun n hn => ?_,
      fun e he => ?_⟩ rfl
    · obtain ⟨hzero, hfull⟩ := hatomic hsmall
      refine .inr ⟨hfull, ?_⟩
      show call.pieces + 1 ≤ 1
      omega
    · dsimp only at hnone ⊢
      split_ifs at hnone with hdone
      · cases hnone
      have hmore : call.written + (copied call.buffer call.written queue).length ≠
          call.buffer.length := fun hfull => hdone (.inl hfull)
      refine ⟨by omega, ?_⟩
      by_contra hsmall
      exact hmore (hatomic (by omega)).2
    · dsimp only at hn ⊢
      split_ifs at hn
      · cases hn
        rfl
      · cases hn
    · dsimp only at he
      split_ifs at he <;> cases he

/-- A step of a write keeps the law of its call exactly when bytes accepted are
not followed by an error. -/
theorem writeStep_conforms (h : call.Conforms) (hrunning : call.result = none)
    (queue : RingBuffer Byte) (turn : Turn) :
    (call.advance (writeStep call.buffer call.written turn queue).accepted
      (writeStep call.buffer call.written turn queue).outcome).Conforms ↔
      (turn.lock = none → (call.written ≠ 0 → ∃ row, turn.Enters Endpoint.write row) ∧
        ∀ row, turn.Enters Endpoint.write row → call.buffer ≠ [] → turn.readers ≠ 0 →
          if mayCopy call.buffer call.written queue then turn.changed = none
          else row.nonblock = false → call.written ≠ 0 → turn.register = none) := by
  have hshort : ∀ error, (call.advance [] (finishShort call.written error)).Conforms :=
    fun error => (advance_nil h hrunning _).mpr (finishShort_ends call.written error)
  have hbad : ∀ error, (call.advance [] (Outcome.failed error)).Conforms ↔ call.written = 0 := by
    intro error
    rw [advance_nil h hrunning]
    refine ⟨fun hend => hend.2 error rfl, fun hzero => ⟨fun n hn => ?_, fun _ _ => hzero⟩⟩
    cases hn
  simp only [Turn.Enters]
  unfold writeStep
  cases hlock : turn.lock with
  | some error => exact iff_of_true (hshort error) (by simp)
  | none =>
    cases hrow : turn.row with
    | none =>
      rw [hbad]
      simp
    | some row =>
      dsimp only
      by_cases hwrite : row.write = false
      · rw [if_pos hwrite, hbad]
        simp [hwrite]
      have hmay : row.write = true := by simpa using hwrite
      rw [if_neg hwrite]
      have hreports : ((none : Option Int) = none →
          (call.written ≠ 0 → ∃ row', (none : Option Int) = none ∧ some row = some row' ∧
            row'.write = true) ∧
          ∀ row', (none : Option Int) = none ∧ some row = some row' ∧ row'.write = true →
            call.buffer ≠ [] → turn.readers ≠ 0 →
            if mayCopy call.buffer call.written queue then turn.changed = none
            else row'.nonblock = false → call.written ≠ 0 → turn.register = none) ↔
          (call.buffer ≠ [] → turn.readers ≠ 0 →
            if mayCopy call.buffer call.written queue then turn.changed = none
            else row.nonblock = false → call.written ≠ 0 → turn.register = none) := by
        refine ⟨fun hall => (hall rfl).2 row ⟨rfl, rfl, hmay⟩, fun hone _ => ⟨fun _ =>
          ⟨row, rfl, rfl, hmay⟩, fun row' hrow' => ?_⟩⟩
        obtain ⟨-, hsame, -⟩ := hrow'
        cases hsame
        exact hone
      rw [hreports]
      by_cases hbuffer : call.buffer = []
      · rw [if_pos hbuffer]
        have hzero : call.written = 0 := by
          have hbound := h.bound
          rw [hbuffer, List.length_nil] at hbound
          omega
        refine iff_of_true ((advance_nil h hrunning _).mpr ⟨fun n hn => ?_, fun _ _ => hzero⟩)
          fun hne => absurd hbuffer hne
        cases hn
        exact hzero.symm
      rw [if_neg hbuffer]
      by_cases hreaders : turn.readers = 0
      · rw [if_pos hreaders]
        exact iff_of_true (hshort EPIPE) fun _ hne => absurd hreaders hne
      rw [if_neg hreaders]
      by_cases hcopy : mayCopy call.buffer call.written queue
      · simp only [if_pos hcopy]
        rw [copyStep_conforms h hrunning hbuffer hcopy]
        exact ⟨fun hchanged _ _ => hchanged, fun hall => hall hbuffer hreaders⟩
      simp only [if_neg hcopy]
      by_cases hnonblock : row.nonblock = true
      · rw [if_pos hnonblock]
        exact iff_of_true (hshort EAGAIN) (by simp [hnonblock])
      rw [if_neg hnonblock]
      unfold registerAndWait
      cases hregister : turn.register with
      | some error =>
        rw [hbad]
        simp only [reduceCtorEq, imp_false, not_not]
        exact ⟨fun hzero _ _ _ => hzero,
          fun hall => hall hbuffer hreaders (by simpa using hnonblock)⟩
      | none =>
        refine iff_of_true ?_ (by simp)
        cases turn.wait with
        | some error => exact hshort error
        | none =>
          refine (advance_nil h hrunning _).mpr ⟨fun n hn => ?_, fun e he => ?_⟩
          · cases hn
          · cases he

/-! ## Interleavings -/

theorem conforms_initial : System.initial.Conforms where
  bounds := ⟨by decide, Nat.zero_le _⟩
  stream := rfl
  calls _ _ hcall := by cases hcall

theorem conforms_step (h : s.Conforms) (event : Event) :
    (s.step event).Conforms ↔ s.Reports event := by
  cases event with
  | read size turn => exact read_conforms h size turn
  | begin id buffer =>
    refine iff_of_true ?_ trivial
    cases hcall : s.calls id with
    | some call =>
      simp only [System.step, hcall]
      exact h
    | none =>
      simp only [System.step, hcall]
      refine ⟨h.bounds, h.stream, fun jd call hjd => ?_⟩
      dsimp only at hjd
      by_cases heq : jd = id
      · subst heq
        rw [Function.update_self, Option.some.injEq] at hjd
        subst hjd
        exact ⟨rfl, Nat.zero_le _, fun _ => .inl ⟨rfl, rfl⟩, fun _ hne => absurd rfl hne,
          fun _ hn => (by cases hn), fun _ he => (by cases he)⟩
      · rw [Function.update_of_ne heq] at hjd
        exact h.calls jd call hjd
  | write id turn =>
    simp only [System.Reports]
    cases hcall : s.calls id with
    | none =>
      simp only [System.step, hcall]
      exact iff_of_true h (by simp)
    | some call =>
      cases hresult : call.result with
      | some result =>
        simp only [System.step, hcall, hresult]
        refine iff_of_true h fun call' hcall' hnone => ?_
        cases hcall'
        rw [hresult] at hnone
        cases hnone
      | none =>
        have hconforms := writeStep_conforms (h.calls id call hcall) hresult s.queue turn
        obtain ⟨hbounds, hcontents⟩ := writeStep_queue h.bounds call.buffer call.written turn
        simp only [System.step, hcall, hresult]
        constructor
        · intro hnext call' hcall' _
          cases hcall'
          refine hconforms.mp (hnext.calls id _ ?_)
          exact Function.update_self _ _ _
        · intro hreports
          refine ⟨hbounds, ?_, fun jd call' hjd => ?_⟩
          · dsimp only
            rw [hcontents, ← List.append_assoc, h.stream]
          · dsimp only at hjd
            by_cases heq : jd = id
            · subst heq
              rw [Function.update_self, Option.some.injEq] at hjd
              subst hjd
              exact hconforms.mpr (hreports call rfl hresult)
            · rw [Function.update_of_ne heq] at hjd
              exact h.calls jd call' hjd

/-- In every interleaving the channel is a queue of bytes and each write call
returns what was accepted, exactly when no step ends in an error after its bytes
were committed. -/
theorem channel_conforms_iff (events : List Event) :
    EveryState System.step System.Conforms .initial events ↔
      EveryStep System.step System.Reports .initial events :=
  everyState_iff_everyStep (I := fun _ => True) (fun _ _ _ => trivial)
    (fun _ event _ hs => conforms_step hs event) trivial conforms_initial

/-- A turn in which an open reader and writer are found and the notification of
the byte's arrival fails. -/
def deafTurn : Turn where
  lock := none
  row := some ⟨false, true, false⟩
  readers := 1
  writers := 1
  changed := some EIO
  register := none
  wait := none

/-- A one-byte write whose notification fails. -/
def deafWrite : List Event := [.begin 0 [0x61], .write 0 deafTurn]

/-- The write fails, and its byte is in the queue. -/
theorem deafWrite_diverges : ¬ EveryState System.step System.Conforms .initial deafWrite ∧
      (run System.step .initial deafWrite).queue.contents CAPACITY = [0x61] ∧
      ((run System.step .initial deafWrite).calls 0).map Call.result =
        some (some (.error EIO)) := by
  refine ⟨fun h => ?_, by decide, rfl⟩
  have hconforms := h.2.2
  have hzero := (hconforms.calls 0 _ rfl).error EIO rfl
  revert hzero
  decide

end Kinakaze.Fifo
