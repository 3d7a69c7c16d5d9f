import Kinakaze.Fifo.Census
import Kinakaze.Library.Run

/-!
# Rendezvous and hangup

An open publishes its row, counts it and records its generations, and may die
after any of these writes.
-/

namespace Kinakaze.Fifo.Presence

open Library

/-! ## Opening -/

variable {s : State}

theorem Settled.present_iff (hs : Settled s) (h : Kept s) (side : Side) :
    s.present side ≠ 0 ↔ ∃ peer, OpenIn s.history side peer := by
  rw [hs.present side, ← Nat.pos_iff_ne_zero, List.countP_pos_iff]
  constructor
  · rintro ⟨slot, hmem, haccess⟩
    cases slot with
    | none => simp [withAccess] at haccess
    | some row =>
      have haccess' : row.access side := by simpa [withAccess] using haccess
      exact ⟨row.id, hs.recorded row hmem side haccess', (h.rows row hmem).unclosed⟩
  · rintro ⟨peer, hopen⟩
    obtain ⟨row, hmem, -, haccess⟩ := h.held side peer hopen
    exact ⟨some row, hmem, by simpa [withAccess] using haccess⟩

theorem Settled.snapshot (hs : Settled s) (h : Kept s) (side : Side) :
    Snapshot s.history side (s.noted side) := by
  unfold State.noted
  constructor
  · intro hopen
    have hpresent := (hs.present_iff h side).mpr hopen
    rw [if_pos hpresent, h.generation side]
    obtain ⟨peer, hin, -⟩ := hopen
    have hpositive := (h.ids _ hin).1
    have hle := le_newest h.ordered hin
    simp only [Entry.id] at hpositive
    omega
  · intro hnone
    have habsent : ¬ s.present side ≠ 0 := fun hpresent =>
      hnone ((hs.present_iff h side).mp hpresent)
    rw [if_neg habsent, h.generation side]

theorem kept_number (h : Kept s) (hs : Settled s) : Kept (s.write (.number (s.nextId + 1))) := by
  refine ⟨Nat.succ_pos _, fun entry hentry => ?_, h.ordered, h.generation, fun row hrow => ?_,
    h.distinct, h.held⟩
  · have hids := h.ids entry hentry
    simp only [State.write]
    omega
  · exact ⟨(h.rows row hrow).published, (h.rows row hrow).unclosed,
      fun side haccess => Or.inl (hs.recorded row hrow side haccess)⟩

variable {row : Row} {slot : Nat}

theorem kept_row (h : Kept s) (hs : Settled s) (hslot : s.rows[slot]? = some none)
    (hfresh : row.id + 1 = s.nextId) (hunused : ∀ entry ∈ s.history, entry.id < row.id)
    (hpositive : 0 < row.id) (hseen : ∀ side, row.seen side = s.noted side) :
    Kept (s.write (.row slot row)) := by
  have hother : ∀ (i : Nat) (other : Row), (s.rows.set slot (some row))[i]? = some (some other) →
      (i = slot ∧ other = row) ∨ (i ≠ slot ∧ s.rows[i]? = some (some other)) := by
    intro i other hi
    rw [List.getElem?_set] at hi
    split_ifs at hi with heq hlt
    · exact Or.inl ⟨heq.symm, by simpa using hi.symm⟩
    · exact Or.inr ⟨fun hsame => heq hsame.symm, hi⟩
  have hold : ∀ (other : Row), some other ∈ s.rows → other.id < row.id := by
    intro other hmem
    obtain ⟨after, before, heq, -⟩ := (h.rows other hmem).published
    exact hunused (.published other.id) (by rw [heq]; simp)
  refine ⟨h.positive, ?_, ?_, h.generation, ?_, ?_, ?_⟩
  · intro entry hentry
    rcases List.mem_cons.mp hentry with rfl | hin
    · simp only [Entry.id, State.write]
      omega
    · exact h.ids entry hin
  · apply List.pairwise_cons.mpr
    refine ⟨fun entry hentry => ?_, h.ordered⟩
    cases entry with
    | published id => exact hunused (.published id) hentry
    | opened | closed => trivial
  · intro other hmem
    obtain ⟨i, hi⟩ := List.mem_iff_getElem?.mp hmem
    rcases hother i other hi with ⟨-, rfl⟩ | ⟨-, hin⟩
    · refine ⟨⟨[], s.history, rfl, fun side => ?_⟩, ?_, fun side _ => Or.inr hfresh⟩
      · rw [hseen side]
        exact hs.snapshot h side
      · intro hclosed
        rcases List.mem_cons.mp hclosed with heq | hin
        · cases heq
        · exact Nat.lt_irrefl _ (hunused _ hin)
    · exact (h.rows other (List.mem_of_getElem? hin)).later (.published row.id) rfl rfl (by simp)
  · intro i j a b hi hj hsame
    rcases hother i a hi with ⟨rfl, rfl⟩ | ⟨hne, hin⟩
    · rcases hother j b hj with ⟨rfl, rfl⟩ | ⟨-, hin⟩
      · rfl
      · have hlt := hold b (List.mem_of_getElem? hin)
        omega
    · rcases hother j b hj with ⟨rfl, rfl⟩ | ⟨-, hin'⟩
      · have hlt := hold a (List.mem_of_getElem? hin)
        omega
      · exact h.distinct i j a b hin hin' hsame
  · intro side id hopen
    rcases hopen.cons with heq | hin
    · cases heq
    obtain ⟨other, hmem, hid, haccess⟩ := h.held side id hin
    obtain ⟨i, hi⟩ := List.mem_iff_getElem?.mp hmem
    refine ⟨other, List.mem_iff_getElem?.mpr ⟨i, ?_⟩, hid, haccess⟩
    simp only [State.write]
    rw [List.getElem?_set_ne]
    · exact hi
    · rintro rfl
      rw [hslot] at hi
      cases hi

/-- A write that counts or records a row already published. -/
inductive Recording (row : Row) : State.Write → Prop
  | count (side : Side) : row.access side → Recording row (.count side)
  | record (side : Side) : row.access side → Recording row (.record side row.id)

variable {w : State.Write}

theorem recording_mem (h : w ∈ State.recording row) : Recording row w := by
  have hside : ∀ side, w ∈ State.recordingOn row side → Recording row w := by
    intro side hin
    unfold State.recordingOn at hin
    split_ifs at hin with haccess
    · simp only [List.mem_cons, List.not_mem_nil, or_false] at hin
      rcases hin with rfl | rfl
      · exact .count side haccess
      · exact .record side haccess
    · simp at hin
  rcases List.mem_append.mp h with hread | hwrite
  · exact hside .read hread
  · exact hside .write hwrite

theorem kept_recording (h : Kept s) (hrow : some row ∈ s.rows) (hnewest : row.id + 1 = s.nextId)
    (hw : Recording row w) : Kept (s.write w) := by
  cases hw with
  | count side _ => exact kept_present h _
  | record side haccess =>
    apply kept_note h hrow haccess
    intro other
    rw [newest_note h hrow haccess other, Function.update_apply]
    split_ifs with hside
    · apply (Nat.max_eq_right _).symm
      rw [h.generation side]
      by_cases hzero : newest side s.history = 0
      · omega
      · have hbound := (h.ids _ (newest_mem hzero)).2
        simp only [Entry.id] at hbound
        omega
    · rfl

theorem recording_frame (hw : Recording row w) (s : State) :
    (s.write w).rows = s.rows ∧ (s.write w).nextId = s.nextId := by
  cases hw with
  | count side _ => exact ⟨rfl, rfl⟩
  | record side _ =>
    unfold State.write State.note
    dsimp only
    split_ifs <;> exact ⟨rfl, rfl⟩

theorem kept_writes {l : List State.Write} (hl : ∀ w ∈ l, Recording row w) (h : Kept s)
    (hrow : some row ∈ s.rows) (hnewest : row.id + 1 = s.nextId) : Kept (s.writes l) := by
  induction l generalizing s with
  | nil => exact h
  | cons w rest ih =>
    have hw := hl w List.mem_cons_self
    obtain ⟨hrows, hnext⟩ := recording_frame hw s
    apply ih (fun other hother => hl other (List.mem_cons_of_mem _ hother))
    · exact kept_recording h hrow hnewest hw
    · rwa [hrows]
    · rwa [hnext]

/-- The row has been counted and recorded on the sides of a list. -/
structure Recorded (s s' : State) (row : Row) (sides : List Side) : Prop where
  rows : s'.rows = s.rows
  present : ∀ side, s'.present side =
    s.present side + if row.access side ∧ side ∈ sides then 1 else 0
  mono : ∀ entry ∈ s.history, entry ∈ s'.history
  mem : ∀ side ∈ sides, row.access side → .opened side row.id ∈ s'.history

theorem recordingOn_done (s : State) (row : Row) (side : Side) :
    Recorded s (s.writes (State.recordingOn row side)) row [side] := by
  unfold State.recordingOn
  split_ifs with haccess
  · refine ⟨?_, fun other => ?_, fun entry hentry => ?_, fun other hother _ => ?_⟩
    · simp only [State.writes, List.foldl_cons, List.foldl_nil, State.write, State.note]
      split_ifs <;> rfl
    · have hpresent : (s.writes [.count side, .record side row.id]).present =
          Function.update s.present side (s.present side + 1) := by
        simp only [State.writes, List.foldl_cons, List.foldl_nil, State.write, State.note]
        split_ifs <;> rfl
      rw [hpresent, Function.update_apply]
      by_cases hside : other = side
      · subst hside
        rw [if_pos rfl, if_pos ⟨haccess, List.mem_singleton_self _⟩]
      · rw [if_neg hside, if_neg fun hboth => hside (List.mem_singleton.mp hboth.2)]
        rfl
    · exact note_mono (s := s.write (.count side)) hentry
    · rw [List.mem_singleton] at hother
      subst hother
      exact note_mem (s := s.write (.count other))
  · refine ⟨rfl, fun other => ?_, fun _ hentry => hentry, fun other hother hother' => ?_⟩
    · rw [if_neg]
      · rfl
      · rintro ⟨hother, hmem⟩
        rw [List.mem_singleton.mp hmem] at hother
        exact haccess hother
    · rw [List.mem_singleton.mp hother] at hother'
      exact absurd hother' haccess

theorem recording_done (s : State) (row : Row) :
    Recorded s (s.writes (State.recording row)) row [.read, .write] := by
  have hread := recordingOn_done s row .read
  have hwrite := recordingOn_done (s.writes (State.recordingOn row .read)) row .write
  have hplan : s.writes (State.recording row) =
      (s.writes (State.recordingOn row .read)).writes (State.recordingOn row .write) := by
    simp only [State.recording, State.writes, List.foldl_append]
  rw [hplan]
  refine ⟨hwrite.rows.trans hread.rows, fun side => ?_,
    fun entry hentry => hwrite.mono entry (hread.mono entry hentry), fun side _ haccess => ?_⟩
  · rw [hwrite.present, hread.present]
    cases side with
    | read => simp
    | write => simp
  · cases side with
    | read => exact hwrite.mono _ (hread.mem .read (List.mem_singleton_self _) haccess)
    | write => exact hwrite.mem .write (List.mem_singleton_self _) haccess

theorem settled_publication (hs : Settled s) (hslot : s.rows[slot]? = some none) (row : Row)
    (next : Nat) : Settled (s.writes (.number next :: State.publication slot row)) := by
  have hdone := recording_done ((s.write (.number next)).write (.row slot row)) row
  have hplan : s.writes (.number next :: State.publication slot row) =
      ((s.write (.number next)).write (.row slot row)).writes (State.recording row) := rfl
  rw [hplan]
  obtain ⟨hlt, hget⟩ := List.getElem?_eq_some_iff.mp hslot
  constructor
  · intro side
    rw [hdone.rows, hdone.present]
    change s.present side + _ = (s.rows.set slot (some row)).countP _
    rw [List.countP_set hlt, hget, hs.present side]
    have hside : side ∈ [Side.read, Side.write] := by cases side <;> simp
    by_cases haccess : row.access side
    · simp [withAccess, haccess, hside]
    · simp [withAccess, haccess]
  · intro other hother side haccess
    rw [hdone.rows] at hother
    obtain ⟨i, hi⟩ := List.mem_iff_getElem?.mp hother
    change (s.rows.set slot (some row))[i]? = some (some other) at hi
    rw [List.getElem?_set] at hi
    split_ifs at hi with heq
    · cases hi
      exact hdone.mem side (by cases side <;> simp) haccess
    · apply hdone.mono
      exact List.mem_cons_of_mem _ (hs.recorded other (List.mem_of_getElem? hi) side haccess)

theorem kept_position (h : Kept s) (head length : Nat) :
    Kept { s with head := head, length := length } :=
  h.congr rfl rfl rfl h.generation

/-- The row an open is going to publish: in a free slot, with the next identity
and the generations of the moment. -/
structure Reserved (s : State) (slot : Nat) (row : Row) : Prop where
  free : s.rows[slot]? = some none
  id : row.id = s.nextId
  seen : ∀ side, row.seen side = s.noted side

theorem reserve_spec (flags : Nat) (access : Side → Bool) (s : State) :
    (∃ head length, (s.reserve flags access).2 = { s with head := head, length := length }) ∧
    ∀ slot row, (s.reserve flags access).1 = .ok (slot, row) →
      Reserved (s.reserve flags access).2 slot row := by
  unfold State.reserve
  split_ifs with hrefused hempty
  · refine ⟨⟨s.head, s.length, rfl⟩, fun slot row hok => ?_⟩
    cases hok
  all_goals
    dsimp only
    split
    · refine ⟨⟨_, _, rfl⟩, fun slot row hok => ?_⟩
      cases hok
    · next slot hslot =>
      split_ifs
      · refine ⟨⟨_, _, rfl⟩, fun slot' row hok => ?_⟩
        cases hok
        have hfound := List.of_findIdx?_eq_some hslot
        refine ⟨?_, rfl, fun side => by cases side <;> rfl⟩
        dsimp only
        cases hget : s.rows[slot]? with
        | none => simp [hget] at hfound
        | some found =>
          cases found with
          | none => rfl
          | some row => simp [hget] at hfound
      · refine ⟨⟨_, _, rfl⟩, fun slot row hok => ?_⟩
        cases hok

theorem kept_plan (h : Kept s) (hs : Settled s) (hreserved : Reserved s slot row) (n : Nat) :
    Kept (s.writes ((.number (row.id + 1) :: State.publication slot row).take n)) := by
  have hnumber : Kept (s.write (.number (row.id + 1))) := by
    rw [hreserved.id]
    exact kept_number h hs
  cases n with
  | zero => exact h
  | succ n =>
    cases n with
    | zero => exact hnumber
    | succ n =>
      have hpublished : Kept ((s.write (.number (row.id + 1))).write (.row slot row)) := by
        apply kept_row hnumber ⟨hs.present, hs.recorded⟩ hreserved.free rfl
        · intro entry hentry
          rw [hreserved.id]
          exact (h.ids entry hentry).2
        · rw [hreserved.id]
          exact h.positive
        · exact hreserved.seen
      have hin : some row ∈ ((s.write (.number (row.id + 1))).write (.row slot row)).rows := by
        have hlt := (List.getElem?_eq_some_iff.mp hreserved.free).1
        exact List.mem_iff_getElem?.mpr ⟨slot, List.getElem?_set_self hlt⟩
      exact kept_writes (l := (State.recording row).take n)
        (fun w hw => recording_mem (List.mem_of_mem_take hw)) hpublished hin rfl

theorem good_openFifo {sys : System} (h : Good sys) (turn : Turn) (flags : Nat)
    (token : Option Int) (death : Option Nat) : Good (sys.openFifo turn flags token death) := by
  have hentered := h.locked turn
  unfold System.openFifo
  cases State.accessOf flags with
  | none => exact h
  | some access =>
    dsimp only
    generalize sys.locked turn = outcome at hentered ⊢
    obtain ⟨result, s⟩ := outcome
    cases result with
    | some error => exact ⟨hentered.kept, fun hclean _ => hentered.settled hclean⟩
    | none =>
      have hsettled : Settled s := hentered.settled (hentered.begun rfl)
      obtain ⟨⟨head, length, hposition⟩, hreserve⟩ := reserve_spec flags access s
      dsimp only
      generalize s.reserve flags access = reservation at hposition hreserve ⊢
      obtain ⟨verdict, s'⟩ := reservation
      dsimp only at hposition hreserve
      have hkept' : Kept s' := hposition ▸ kept_position hentered.kept head length
      have hsettled' : Settled s' := hposition ▸ ⟨hsettled.present, hsettled.recorded⟩
      cases verdict with
      | error error => exact ⟨hkept', fun _ _ => hsettled'⟩
      | ok reserved =>
        obtain ⟨slot, row⟩ := reserved
        have hreserved := hreserve slot row rfl
        dsimp only
        cases token with
        | some error =>
          constructor
          · -- Without a token the open gets as far as its number.
            have hplan := kept_plan hkept' hsettled' hreserved
            cases death with
            | none => exact hplan 1
            | some n =>
              cases n with
              | zero => exact hplan 0
              | succ n => simpa using hplan 1
          · intro _ hdeath
            cases death with
            | some n => cases hdeath
            | none => exact ⟨hsettled'.present, hsettled'.recorded⟩
        | none =>
          constructor
          · exact kept_plan hkept' hsettled' hreserved _
          · intro _ hdeath
            cases death with
            | some n => cases hdeath
            | none =>
              simp only [Option.isNone_none, if_true, Option.getD_none, List.take_length]
              exact settled_publication hsettled' hreserved.free row _

/-! ## Runs -/

theorem initial_good : Good System.initial := by
  have hfree : ∀ row : Row, some row ∉ System.initial.state.rows := by
    intro row hrow
    cases (List.mem_replicate.mp hrow).2
  refine ⟨⟨Nat.one_pos, ?_, .nil, fun _ => rfl, fun row hrow => absurd hrow (hfree row), ?_, ?_⟩,
    nofun⟩
  · intro entry hentry
    cases hentry
  · intro i j row row' hi
    exact absurd (List.mem_of_getElem? hi) (hfree row)
  · rintro side id ⟨hopened, -⟩
    cases hopened

theorem step_good (sys : System) (event : Event) (h : Good sys) : Good (sys.step event) := by
  cases event with
  | close id => exact ⟨h.kept, h.settled⟩
  | invalidate => exact ⟨kept_reconcile h.kept true, nofun⟩
  | lock turn =>
    have hentered := h.locked turn
    exact ⟨hentered.kept, fun hclean _ => hentered.settled hclean⟩
  | dieScanning turn slots =>
    simp only [System.step]
    split_ifs
    · exact ⟨kept_sweep (kept_reconcile h.kept true) _ _, nofun⟩
    · exact ⟨h.kept, nofun⟩
  | openFifo turn flags token death => exact good_openFifo h turn flags token death

theorem reachable_good {sys : System}
    (h : Reachable System.step (· = System.initial) sys) : Good sys :=
  Reachable.invariant System.step (P := Good) (by rintro _ rfl; exact initial_good) step_good h

theorem Kept.existed_of_open (h : Kept s) (hrow : some row ∈ s.rows) {side : Side}
    (hopen : ∃ peer, OpenIn s.history side peer) : Existed s.history side row.id := by
  obtain ⟨peer, hopened, hclosed⟩ := hopen
  obtain ⟨after, before, heq, -⟩ := (h.rows row hrow).published
  rw [heq] at hopened hclosed
  refine ⟨after, before, heq, peer, ?_⟩
  rcases List.mem_append.mp hopened with hin | hin
  · exact Or.inl hin
  rcases List.mem_cons.mp hin with hsame | hin
  · cases hsame
  · refine Or.inr ⟨hin, fun hmem => hclosed ?_⟩
    exact List.mem_append_right _ (List.mem_cons_of_mem _ hmem)

theorem Kept.connected_iff (h : Kept s) (hs : Settled s) (hrow : some row ∈ s.rows) (side : Side) :
    0 < s.present side ∨ s.generation side ≠ row.seen side ↔ Existed s.history side row.id := by
  rw [h.seen_iff hrow side]
  constructor
  · rintro (hpresent | hexisted)
    · exact h.existed_of_open hrow ((hs.present_iff h side).mp (Nat.pos_iff_ne_zero.mp hpresent))
    · exact hexisted
  · exact Or.inr

/-- In every locked section of every run: an open blocked on one side may return
exactly when a peer has existed for its row; a reader hangs up exactly when no
writer is open and one has existed for it; the counts are those of the rows, and
where a scan was due only rows whose token is there are left. -/
theorem rendezvous {sys : System} (h : Reachable System.step (· = System.initial) sys) (turn : Turn)
    (hbegun : (sys.locked turn).1 = none) :
    (∀ row, some row ∈ (sys.locked turn).2.rows → ∀ side, row.access side → ¬ row.access side.peer →
      ((sys.locked turn).2.connected row = true ↔
        Existed (sys.locked turn).2.history side.peer row.id)) ∧
    (∀ row, some row ∈ (sys.locked turn).2.rows →
      (((sys.locked turn).2.readiness row).hangup = true ↔
        row.access .read = true ∧ (¬ ∃ peer, OpenIn (sys.locked turn).2.history .write peer) ∧
          Existed (sys.locked turn).2.history .write row.id)) ∧
    (∀ side, (sys.locked turn).2.present side = (sys.locked turn).2.rows.countP (withAccess side)) ∧
    (sys.abandoned = true ∨ turn.watched = true ∨ sys.state.needsReconcile = true →
      ∀ row, some row ∈ (sys.locked turn).2.rows → row.id ∈ sys.tokens) := by
  have hentered := (reachable_good h).locked turn
  generalize sys.locked turn = outcome at hentered hbegun ⊢
  obtain ⟨result, s⟩ := outcome
  have hkept : Kept s := hentered.kept
  have hsettled : Settled s := hentered.settled (hentered.begun hbegun)
  refine ⟨fun row hrow side haccess hpeer => ?_, fun row hrow => ?_, hsettled.present,
    fun hscanned row hrow => ?_⟩
  · rw [← hkept.connected_iff hsettled hrow side.peer]
    unfold State.connected
    cases side with
    | read =>
      rw [if_pos ⟨haccess, hpeer⟩, decide_eq_true_eq]
      rfl
    | write =>
      rw [if_neg fun hboth => hboth.2 haccess, decide_eq_true_eq]
      rfl
  · rw [← hkept.seen_iff hrow .write, ← hsettled.present_iff hkept .write]
    simp only [State.readiness, Row.seen, Bool.and_eq_true, beq_iff_eq, bne_iff_ne, ne_eq,
      not_not, and_assoc]
  · exact of_decide_eq_true (hentered.alive hbegun hscanned row hrow)

/-- A turn without failures. -/
def calm (watched : Bool) : Turn := ⟨watched, none, none, none, none⟩

theorem locked_calm (sys : System) (watched : Bool) : (sys.locked (calm watched)).1 = none := by
  have hreconcile : ∀ s : State, (s.reconcile sys.live (calm watched)).1 = none := by
    intro s
    simp [State.reconcile, calm]
  have hscan : ∀ s : State,
      (if s.needsReconcile then s.reconcile sys.live (calm watched) else (none, s)).1 = none := by
    intro s
    split_ifs
    · exact hreconcile s
    · rfl
  unfold System.locked State.lock
  rw [if_neg (by simp [calm])]
  exact hscan _

/-- A reader opens, a writer comes and goes, and its token is found missing. -/
def visitor : List Event :=
  [.openFifo (calm false) 0 none none, .openFifo (calm true) 1 none none, .close 2]

/-- What the reader of the first row finds then. -/
theorem rendezvous_visitor :
    let visited := ((run System.step System.initial visitor).locked (calm true)).2
    ∀ row, some row ∈ visited.rows → ((visited.readiness row).hangup = true ↔
        row.access .read = true ∧ (¬ ∃ peer, OpenIn visited.history .write peer) ∧
          Existed visited.history .write row.id) := by
  have hstart : Reachable System.step (· = System.initial) System.initial := .start rfl
  have hreach := hstart.run System.step visitor
  generalize run System.step System.initial visitor = sys at hreach ⊢
  exact (rendezvous hreach (calm true) (locked_calm sys true)).2.1

end Kinakaze.Fifo.Presence
