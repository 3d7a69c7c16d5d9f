import Kinakaze.Fifo.History

/-!
# The scan of the tokens

The scan drops the rows whose token is gone, counts the others and completes
what an owner that died left half recorded.
-/

namespace Kinakaze.Fifo.Presence

/-! ## The scan -/

variable {side : Side} {id slots : Nat} {entry : Entry}

theorem OpenIn.cons {history : List Entry} (h : OpenIn (entry :: history) side id) :
    entry = .opened side id ∨ OpenIn history side id := by
  obtain ⟨hopened, hclosed⟩ := h
  rcases List.mem_cons.mp hopened with heq | hin
  · exact Or.inl heq.symm
  · exact Or.inr ⟨hin, fun hmem => hclosed (List.mem_cons_of_mem _ hmem)⟩

variable {s : State} {row : Row}

theorem RowKept.later {s' : State} (h : RowKept s row) (entry : Entry)
    (hhistory : s'.history = entry :: s.history) (hnext : s'.nextId = s.nextId)
    (hclosed : entry ≠ .closed row.id) : RowKept s' row := by
  obtain ⟨after, before, heq, hsnapshot⟩ := h.published
  refine ⟨⟨entry :: after, before, by rw [hhistory, heq]; rfl, hsnapshot⟩, ?_, fun side ha => ?_⟩
  · rw [hhistory]
    intro hmem
    rcases List.mem_cons.mp hmem with hnew | hold
    · exact hclosed hnew.symm
    · exact h.unclosed hold
  · rw [hhistory, hnext]
    rcases h.opened side ha with hin | hlast
    · exact Or.inl (List.mem_cons_of_mem _ hin)
    · exact Or.inr hlast

theorem kept_note (h : Kept s) (hrow : some row ∈ s.rows) (haccess : row.access side)
    (generation : Side → Nat)
    (hgeneration : ∀ other, generation other = newest other (s.note side row.id).history) :
    Kept { s.note side row.id with generation := generation } := by
  have hids : 0 < row.id ∧ row.id < s.nextId := by
    obtain ⟨after, before, heq, -⟩ := (h.rows row hrow).published
    exact h.ids (.published row.id) (by rw [heq]; simp)
  unfold State.note at hgeneration ⊢
  by_cases hin : .opened side row.id ∈ s.history
  · rw [if_pos hin] at hgeneration ⊢
    exact h.congr rfl rfl rfl hgeneration
  rw [if_neg hin] at hgeneration ⊢
  have hlast : row.id + 1 = s.nextId := by
    rcases (h.rows row hrow).opened side haccess with hmem | hlast
    · exact absurd hmem hin
    · exact hlast
  refine ⟨h.positive, ?_, ?_, hgeneration, ?_, h.distinct, ?_⟩
  · intro entry hentry
    rcases List.mem_cons.mp hentry with rfl | hold
    · exact hids
    · exact h.ids entry hold
  · apply List.pairwise_cons.mpr
    refine ⟨fun entry hentry => ?_, h.ordered⟩
    cases entry with
    | published | closed => trivial
    | opened side' id =>
      rintro rfl
      have hbound := (h.ids _ hentry).2
      have hne : id ≠ row.id := by
        rintro rfl
        exact hin hentry
      simp only [Entry.id] at hbound
      omega
  · exact fun other hother => (h.rows other hother).later (.opened side row.id) rfl rfl (by simp)
  · intro side' id hopen
    rcases hopen.cons with heq | hold
    · cases heq
      exact ⟨row, hrow, rfl, haccess⟩
    · exact h.held side' id hold

theorem newest_note (h : Kept s) (hrow : some row ∈ s.rows) (haccess : row.access side)
    (other : Side) :
    newest other (s.note side row.id).history =
      if other = side then max (s.generation side) row.id else s.generation other := by
  unfold State.note
  by_cases hin : .opened side row.id ∈ s.history
  · rw [if_pos hin, h.generation other]
    split_ifs with hside
    · subst hside
      rw [h.generation other]
      exact (Nat.max_eq_left (le_newest h.ordered hin)).symm
    · rfl
  rw [if_neg hin, h.generation other]
  have hlast : row.id + 1 = s.nextId := by
    rcases (h.rows row hrow).opened side haccess with hmem | hlast
    · exact absurd hmem hin
    · exact hlast
  simp only [newest]
  by_cases hside : side = other
  · subst hside
    rw [if_pos rfl, if_pos rfl, h.generation side]
    apply (Nat.max_eq_right _).symm
    by_cases hzero : newest side s.history = 0
    · omega
    · have hbound := (h.ids _ (newest_mem hzero)).2
      simp only [Entry.id] at hbound
      omega
  · rw [if_neg hside, if_neg (fun heq => hside heq.symm)]

theorem kept_present (h : Kept s) (present : Side → Nat) : Kept { s with present := present } :=
  h.congr rfl rfl rfl h.generation

theorem kept_reconcile (h : Kept s) (needs : Bool) : Kept { s with needsReconcile := needs } :=
  h.congr rfl rfl rfl h.generation

theorem census_rows (s : State) (row : Row) (side : Side) : (s.census row side).rows = s.rows := by
  unfold State.census State.note
  split_ifs <;> rfl

theorem kept_census (h : Kept s) (hrow : some row ∈ s.rows) (side : Side) :
    Kept (s.census row side) := by
  unfold State.census
  split_ifs with haccess
  · apply kept_present (s := { s.note side row.id with
      generation := Function.update s.generation side (max (s.generation side) row.id) })
    apply kept_note h hrow haccess
    intro other
    rw [newest_note h hrow haccess other, Function.update_apply]
  · exact h

theorem kept_drop (h : Kept s) {slot : Nat} (hslot : s.rows[slot]? = some (some row)) :
    Kept { s with rows := s.rows.set slot none, history := .closed row.id :: s.history } := by
  have hrow : some row ∈ s.rows := List.mem_of_getElem? hslot
  have hids : 0 < row.id ∧ row.id < s.nextId := by
    obtain ⟨after, before, heq, -⟩ := (h.rows row hrow).published
    exact h.ids (.published row.id) (by rw [heq]; simp)
  have hother : ∀ (i : Nat) (other : Row), (s.rows.set slot none)[i]? = some (some other) →
      i ≠ slot ∧ s.rows[i]? = some (some other) := by
    intro i other hi
    rw [List.getElem?_set] at hi
    split_ifs at hi with heq hlt
    · simp at hi
    · exact ⟨fun hsame => heq hsame.symm, hi⟩
  refine ⟨h.positive, ?_, ?_, ?_, ?_, ?_, ?_⟩
  · intro entry hentry
    rcases List.mem_cons.mp hentry with rfl | hold
    · exact hids
    · exact h.ids entry hold
  · apply List.pairwise_cons.mpr
    exact ⟨fun entry _ => by cases entry <;> trivial, h.ordered⟩
  · exact h.generation
  · intro other hmem
    obtain ⟨i, hi⟩ := List.mem_iff_getElem?.mp hmem
    obtain ⟨hne, hold⟩ := hother i other hi
    refine (h.rows other (List.mem_of_getElem? hold)).later (.closed row.id) rfl rfl ?_
    intro heq
    exact hne (h.distinct i slot other row hold hslot (Entry.closed.inj heq).symm)
  · intro i j a b hi hj hsame
    exact h.distinct i j a b (hother i a hi).2 (hother j b hj).2 hsame
  · intro side id hopen
    rcases hopen.cons with heq | hold
    · cases heq
    obtain ⟨other, hmem, rfl, haccess⟩ := h.held side id hold
    obtain ⟨i, hi⟩ := List.mem_iff_getElem?.mp hmem
    refine ⟨other, List.mem_iff_getElem?.mpr ⟨i, ?_⟩, rfl, haccess⟩
    rw [List.getElem?_set_ne]
    · exact hi
    rintro rfl
    rw [hslot] at hi
    cases hi
    exact hopen.2 List.mem_cons_self

theorem kept_visit (h : Kept s) (live : Nat → Bool) (slot : Nat) : Kept (s.visit live slot) := by
  unfold State.visit
  split
  · next row hslot =>
    have hrow : some row ∈ s.rows := List.mem_of_getElem? hslot
    split_ifs
    · apply kept_census (kept_census h hrow .read)
      rwa [census_rows]
    · exact kept_drop h hslot
  · exact h

theorem kept_sweep (h : Kept s) (live : Nat → Bool) (slots : Nat) : Kept (s.sweep live slots) := by
  induction slots with
  | zero => exact kept_present h _
  | succ slots ih => exact kept_visit ih live slots

/-! ## What the scan leaves -/

theorem census_present (s : State) (row : Row) (side other : Side) :
    (s.census row side).present other =
      s.present other + if row.access side ∧ other = side then 1 else 0 := by
  unfold State.census
  by_cases haccess : row.access side
  · rw [if_pos haccess]
    change Function.update s.present side (s.present side + 1) other = _
    rw [Function.update_apply]
    by_cases hside : other = side
    · rw [if_pos hside, if_pos ⟨haccess, hside⟩, hside]
    · rw [if_neg hside, if_neg fun hboth => hside hboth.2]
      rfl
  · rw [if_neg haccess, if_neg fun hboth => haccess hboth.1]
    rfl

theorem note_mem : .opened side id ∈ (s.note side id).history := by
  unfold State.note
  split_ifs with hin
  · exact hin
  · exact List.mem_cons_self

theorem note_mono (h : entry ∈ s.history) : entry ∈ (s.note side id).history := by
  unfold State.note
  split_ifs
  · exact h
  · exact List.mem_cons_of_mem _ h

theorem census_mem (h : row.access side) : .opened side row.id ∈ (s.census row side).history := by
  unfold State.census
  rw [if_pos h]
  exact note_mem

theorem census_mono (h : entry ∈ s.history) : entry ∈ (s.census row side).history := by
  unfold State.census
  split_ifs
  · exact note_mono h
  · exact h

/-- The first `slots` rows have been counted, recorded and found alive. -/
structure Swept (live : Nat → Bool) (s : State) (slots : Nat) : Prop where
  present : ∀ side, s.present side = (s.rows.take slots).countP (withAccess side)
  alive : ∀ (i : Nat) (row : Row), i < slots → s.rows[i]? = some (some row) → live row.id
  recorded : ∀ (i : Nat) (row : Row), i < slots → s.rows[i]? = some (some row) →
    ∀ side, row.access side → .opened side row.id ∈ s.history

variable {live : Nat → Bool}

theorem swept_keep (h : Swept live s slots) (hslot : s.rows[slots]? = some (some row))
    (hlive : live row.id) : Swept live ((s.census row .read).census row .write) (slots + 1) := by
  have hrows : ((s.census row .read).census row .write).rows = s.rows := by
    rw [census_rows, census_rows]
  constructor
  · intro side
    rw [hrows, List.take_add_one, hslot, census_present, census_present, h.present side,
      List.countP_append]
    simp only [Option.toList_some, List.countP_singleton, withAccess, Option.any_some]
    cases side with
    | read => by_cases haccess : row.access .read <;> simp [haccess]
    | write => by_cases haccess : row.access .write <;> simp [haccess]
  · intro i other hi hother
    rw [hrows] at hother
    by_cases hlast : i = slots
    · subst hlast
      rw [hslot] at hother
      cases hother
      exact hlive
    · exact h.alive i other (by omega) hother
  · intro i other hi hother side haccess
    rw [hrows] at hother
    by_cases hlast : i = slots
    · subst hlast
      rw [hslot] at hother
      cases hother
      cases side with
      | read => exact census_mono (census_mem haccess)
      | write => exact census_mem haccess
    · exact census_mono (census_mono (h.recorded i other (by omega) hother side haccess))

theorem swept_free {s' : State} (h : Swept live s slots)
    (hslot : ∀ row, s'.rows[slots]? ≠ some (some row))
    (hrows : ∀ i, i < slots → s'.rows[i]? = s.rows[i]?)
    (htake : s'.rows.take slots = s.rows.take slots) (hpresent : s'.present = s.present)
    (hhistory : ∀ entry ∈ s.history, entry ∈ s'.history) : Swept live s' (slots + 1) := by
  have hbefore : ∀ (i : Nat) (row : Row), i < slots + 1 → s'.rows[i]? = some (some row) →
      i < slots ∧ s.rows[i]? = some (some row) := by
    intro i row hi hrow
    have hlt : i < slots := by
      apply Nat.lt_of_le_of_ne (Nat.le_of_lt_succ hi)
      rintro rfl
      exact hslot row hrow
    exact ⟨hlt, hrows i hlt ▸ hrow⟩
  constructor
  · intro side
    rw [List.take_add_one, List.countP_append, htake, hpresent, h.present side]
    cases hget : s'.rows[slots]? with
    | none => rfl
    | some slot =>
      cases slot with
      | none => rfl
      | some row => exact absurd hget (hslot row)
  · intro i row hi hrow
    obtain ⟨hlt, hold⟩ := hbefore i row hi hrow
    exact h.alive i row hlt hold
  · intro i row hi hrow side haccess
    obtain ⟨hlt, hold⟩ := hbefore i row hi hrow
    exact hhistory _ (h.recorded i row hlt hold side haccess)

theorem swept_visit (h : Swept live s slots) : Swept live (s.visit live slots) (slots + 1) := by
  unfold State.visit
  split
  · next row hslot =>
    split_ifs with hlive
    · exact swept_keep h hslot hlive
    have hcleared : (s.rows.set slots none)[slots]? = some none :=
      List.getElem?_set_self (List.getElem?_eq_some_iff.mp hslot).1
    apply swept_free h
    · intro other hother
      rw [hcleared] at hother
      cases hother
    · exact fun i hi => List.getElem?_set_ne (by omega)
    · exact List.take_set_of_le (Nat.le_refl _)
    · rfl
    · exact fun entry hentry => List.mem_cons_of_mem _ hentry
  · next hfree =>
    exact swept_free h (fun row heq => hfree row heq) (fun _ _ => rfl) rfl rfl fun _ he => he

theorem visit_length (live : Nat → Bool) (s : State) (slot : Nat) :
    (s.visit live slot).rows.length = s.rows.length := by
  unfold State.visit
  split
  · split_ifs
    · rw [census_rows, census_rows]
    · exact List.length_set
  · rfl

theorem sweep_length (live : Nat → Bool) (s : State) (slots : Nat) :
    (s.sweep live slots).rows.length = s.rows.length := by
  induction slots with
  | zero => rfl
  | succ slots ih => rw [State.sweep, visit_length, ih]

theorem swept_sweep (live : Nat → Bool) (s : State) (slots : Nat) :
    Swept live (s.sweep live slots) slots := by
  induction slots with
  | zero =>
    constructor
    · intro side
      simp [State.sweep]
    · intro i row hi
      omega
    · intro i row hi
      omega
  | succ slots ih => exact swept_visit ih

theorem settled_sweep (live : Nat → Bool) (s : State) : Settled (s.sweep live s.rows.length) ∧
      ∀ row, some row ∈ (s.sweep live s.rows.length).rows → live row.id := by
  have hswept := swept_sweep live s s.rows.length
  have hindex : ∀ row, some row ∈ (s.sweep live s.rows.length).rows →
      ∃ i, i < s.rows.length ∧ (s.sweep live s.rows.length).rows[i]? = some (some row) := by
    intro row hrow
    obtain ⟨i, hi⟩ := List.mem_iff_getElem?.mp hrow
    have hlt := (List.getElem?_eq_some_iff.mp hi).1
    rw [sweep_length] at hlt
    exact ⟨i, hlt, hi⟩
  refine ⟨⟨fun side => ?_, fun row hrow => ?_⟩, fun row hrow => ?_⟩
  · rw [hswept.present side, List.take_of_length_le (Nat.le_of_eq (sweep_length _ _ _))]
  · obtain ⟨i, hlt, hi⟩ := hindex row hrow
    exact hswept.recorded i row hlt hi
  · obtain ⟨i, hlt, hi⟩ := hindex row hrow
    exact hswept.alive i row hlt hi

/-! ## Locked sections -/

/-- What holds between locked sections. -/
structure Good (sys : System) : Prop where
  kept : Kept sys.state
  settled : sys.state.needsReconcile = false → sys.abandoned = false → Settled sys.state

/-- What a section that took the mutex leaves or finds: settled unless another
scan is due, settled in any case if it can begin, and then only the living are
left where it has scanned. -/
structure Entered (live : Nat → Bool) (scanned : Prop) (result : Option Int × State) : Prop where
  kept : Kept result.2
  settled : result.2.needsReconcile = false → Settled result.2
  begun : result.1 = none → result.2.needsReconcile = false
  alive : result.1 = none → scanned → ∀ row, some row ∈ result.2.rows → live row.id

theorem reconcile_entered (h : Kept s) (hdue : s.needsReconcile = true) (live : Nat → Bool)
    (turn : Turn) (scanned : Prop) : Entered live scanned (s.reconcile live turn) := by
  obtain ⟨hsettled, halive⟩ := settled_sweep live s
  have hkept := kept_sweep h live s.rows.length
  unfold State.reconcile
  split
  · next error =>
    refine ⟨h, fun hnot => ?_, fun hnone => ?_, fun hnone => ?_⟩
    · rw [hdue] at hnot
      cases hnot
    · cases hnone
    · cases hnone
  dsimp only
  split_ifs with hchanged
  · refine ⟨hkept, fun _ => hsettled, fun hnone => ?_, fun _ _ => halive⟩
    obtain ⟨-, hsome⟩ := hchanged
    dsimp only at hnone
    rw [hnone] at hsome
    cases hsome
  · exact ⟨kept_reconcile hkept false, fun _ => ⟨hsettled.present, hsettled.recorded⟩,
      fun _ => rfl, fun _ _ => halive⟩

/-- The end of `lock`: the watch is rearmed and a due scan made. -/
theorem rearmed_entered (h : Kept s) (hsettled : s.needsReconcile = false → Settled s)
    (live : Nat → Bool) (turn : Turn) {scanned : Prop} (hscanned : scanned → s.needsReconcile) :
    Entered live scanned (match turn.rearmed with
        | some error => (some error, s)
        | none => if s.needsReconcile then s.reconcile live turn else (none, s)) := by
  split
  · next error =>
    refine ⟨h, hsettled, fun hnone => ?_, fun hnone => ?_⟩
    · cases hnone
    · cases hnone
  · split_ifs with hdue
    · exact reconcile_entered h hdue live turn scanned
    · refine ⟨h, hsettled, fun _ => by simpa using hdue, fun _ hscan => ?_⟩
      exact absurd (hscanned hscan) hdue

theorem Good.locked {sys : System} (h : Good sys) (turn : Turn) :
    Entered sys.live (sys.abandoned = true ∨ turn.watched = true ∨ sys.state.needsReconcile = true)
      (sys.locked turn) := by
  have hdue : Kept { sys.state with needsReconcile := true } := kept_reconcile h.kept true
  unfold System.locked State.lock
  cases habandoned : sys.abandoned with
  | true =>
    simp only [if_true, true_and]
    by_cases hretired : turn.retired.isSome
    · rw [if_pos hretired]
      have hsome : turn.retired ≠ none := by
        intro hnone
        rw [hnone] at hretired
        cases hretired
      exact ⟨hdue, fun hnot => (by cases hnot), fun hnone => absurd hnone hsome,
        fun hnone => absurd hnone hsome⟩
    · rw [if_neg hretired]
      cases turn.watched with
      | true | false =>
        exact rearmed_entered hdue nofun sys.live turn fun _ => rfl
  | false =>
    simp only [Bool.false_eq_true, if_false, false_and, false_or]
    cases hwatched : turn.watched with
    | true =>
      simp only [if_true]
      exact rearmed_entered hdue nofun sys.live turn fun _ => rfl
    | false =>
      simp only [Bool.false_eq_true, if_false, false_or]
      exact rearmed_entered h.kept (fun hclean => h.settled hclean habandoned) sys.live turn id

end Kinakaze.Fifo.Presence
