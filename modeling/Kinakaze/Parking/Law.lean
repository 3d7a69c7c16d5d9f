import Kinakaze.Parking.Tickets

/-!
# No wakeup is lost

The ledger says of the rows and of where each thread is what it owes.  A chosen
waiter that fails instead of answering its signal is the only way to lose one.
-/

namespace Kinakaze.Parking

open Library

/-- What the ledger writes down of a row. -/
def Row.entry (row : Row) : Option Entry :=
  if row.key.condition then some ⟨row.thread, row.key.address, row.selected⟩ else none

structure Sim (ledger : Ledger) (s : State) : Prop extends Inv s where
  queue : ledger.queue = s.rows.filterMap Row.entry
  owing : ∀ t, ledger.owing t = (s.pc t).owes
  excused : ∀ t, (s.pc t).claimsZero = true → ledger.excused t = true
  finishing : ∀ t ticket, s.pc t = .waitFinish ticket 0 →
    ledger.excused t = true ∨ ∃ row ∈ s.rows, row.thread = t ∧ row.selected = true

variable {ledger ledger' : Ledger} {s s' : State} {t u : Thread}

/-! ### The queue of the ledger -/

theorem filterMap_entry_filter (rows : List Row) (t : Thread) :
    (rows.filter (·.thread ≠ t)).filterMap Row.entry =
      (rows.filterMap Row.entry).filter (·.thread ≠ t) := by
  induction rows with
  | nil => rfl
  | cons row rows ih =>
    by_cases hthread : row.thread = t <;> by_cases hcondition : row.key.condition = true <;>
      simp_all [Row.entry]

theorem mem_queue (h : Sim ledger s) {entry : Entry} :
    entry ∈ ledger.queue ↔ ∃ row ∈ s.rows, row.key.condition = true ∧
      entry = ⟨row.thread, row.key.address, row.selected⟩ := by
  rw [h.queue, List.mem_filterMap]
  refine exists_congr fun row => and_congr_right fun _ => ?_
  unfold Row.entry
  split
  · next hcondition => simp [hcondition, eq_comm]
  · next hcondition => simp [hcondition]

theorem Sim.unqueued (h : Sim ledger s) (hnone : (s.pc t).ticket = none) :
    t ∉ ledger.queue.map Entry.thread := by
  intro hmem
  obtain ⟨entry, hentry, hthread⟩ := List.mem_map.mp hmem
  obtain ⟨row, hrow, -, rfl⟩ := (mem_queue h).mp hentry
  exact h.toInv.rowless hnone row hrow hthread

theorem due_filterMap (rows : List Row) (address : Nat) :
    ((rows.filterMap Row.entry).filter fun entry =>
      entry.address = address ∧ entry.chosen = false).map Entry.thread =
      (rows.filter (·.open ⟨address, true⟩)).map Row.thread := by
  induction rows with
  | nil => rfl
  | cons row rows ih =>
    obtain ⟨token, thread, ⟨place, condition⟩, selected⟩ := row
    by_cases hplace : place = address <;> cases condition <;> cases selected <;>
      simp_all [Row.entry, Row.open]

theorem entry_signalled (row : Row) (address : Nat) (woken : List Thread) :
    (row.signalled ⟨address, true⟩ woken).entry = row.entry.map fun entry =>
      if entry.address = address ∧ entry.thread ∈ woken then { entry with chosen := true }
      else entry := by
  obtain ⟨token, thread, ⟨place, condition⟩, selected⟩ := row
  by_cases hplace : place = address <;> by_cases hwoken : thread ∈ woken <;> cases condition <;>
    cases selected <;> simp [Row.entry, Row.signalled, Row.open, hplace, hwoken]

/-! ### One thread moves -/

/-- The ledger accepts what is seen, and still says what the state says. -/
def Kept (ledger : Ledger) (result : State × Option Event) : Prop :=
  ∃ ledger', (match result.2 with
    | none => some ledger
    | some event => ledger.accept event) = some ledger' ∧ Sim ledger' result.1

variable (h : Sim ledger s)
include h

/-- A step of `t` in which no selected row of another thread goes away. -/
theorem Sim.step (hinv : Inv s') (hpc : ∀ u, u ≠ t → s'.pc u = s.pc u)
    (hqueue : ledger'.queue = s'.rows.filterMap Row.entry)
    (hrows : ∀ row ∈ s.rows, row.thread ≠ t → row.selected = true →
      ∃ row' ∈ s'.rows, row'.thread = row.thread ∧ row'.selected = true)
    (howing : ∀ u, u ≠ t → ledger'.owing u = ledger.owing u)
    (hexcused : ∀ u, u ≠ t → ledger'.excused u = ledger.excused u)
    (howes : ledger'.owing t = (s'.pc t).owes)
    (hzero : (s'.pc t).claimsZero = true → ledger'.excused t = true)
    (hfinish : ∀ ticket, s'.pc t = .waitFinish ticket 0 → ledger'.excused t = true ∨
      ∃ row ∈ s'.rows, row.thread = t ∧ row.selected = true) : Sim ledger' s' := by
  refine ⟨hinv, hqueue, fun u => ?_, fun u hu => ?_, fun u ticket hu => ?_⟩ <;>
    by_cases hut : u = t
  · rw [hut]
    exact howes
  · rw [howing u hut, hpc u hut]
    exact h.owing u
  · rw [hut] at hu ⊢
    exact hzero hu
  · rw [hpc u hut] at hu
    rw [hexcused u hut]
    exact h.excused u hu
  · rw [hut] at hu ⊢
    exact hfinish ticket hu
  · rw [hpc u hut] at hu
    rw [hexcused u hut]
    rcases h.finishing u ticket hu with hnoticed | ⟨row, hrow, hthread, hselected⟩
    · exact .inl hnoticed
    · obtain ⟨row', hrow', hthread', hselected'⟩ := hrows row hrow (hthread ▸ hut) hselected
      exact .inr ⟨row', hrow', hthread'.trans hthread, hselected'⟩

/-- A step of `t` that leaves the rows as they are. -/
theorem Sim.move (hinv : Inv s') (hrows : s'.rows = s.rows)
    (hpc : ∀ u, u ≠ t → s'.pc u = s.pc u) (hqueue : ledger'.queue = ledger.queue)
    (howing : ∀ u, u ≠ t → ledger'.owing u = ledger.owing u)
    (hexcused : ∀ u, u ≠ t → ledger'.excused u = ledger.excused u)
    (howes : ledger'.owing t = (s'.pc t).owes)
    (hzero : (s'.pc t).claimsZero = true → ledger'.excused t = true)
    (hfinish : ∀ ticket, s'.pc t = .waitFinish ticket 0 → ledger'.excused t = true ∨
      ∃ row ∈ s.rows, row.thread = t ∧ row.selected = true) : Sim ledger' s' :=
  h.step hinv hpc (by rw [hqueue, hrows]; exact h.queue)
    (fun row hrow _ hselected => ⟨row, hrows ▸ hrow, rfl, hselected⟩) howing hexcused howes hzero
    (hrows ▸ hfinish)

variable {pc : Pc}

/-- A step that only moves `t`, to a line with the same ticket. -/
theorem Sim.goto (hticket : pc.ticket = (s.pc t).ticket) (hfits : pc.Fits)
    (hready : pc.resting = true → ∀ row ∈ s.rows, row.thread = t → row.selected = true →
      s.event t = true) (hnot : ∀ address, ¬(s.pc t).Releases address)
    (hsleep : ∀ ticket, pc = .timedSleep ticket → s.locked ticket.key.address = true)
    (hqueue : ledger'.queue = ledger.queue) (howing : ∀ u, u ≠ t → ledger'.owing u = ledger.owing u)
    (hexcused : ∀ u, u ≠ t → ledger'.excused u = ledger.excused u)
    (howes : ledger'.owing t = pc.owes) (hzero : pc.claimsZero = true → ledger'.excused t = true)
    (hfinish : ∀ ticket, pc = .waitFinish ticket 0 → ledger'.excused t = true ∨
      ∃ row ∈ s.rows, row.thread = t ∧ row.selected = true) : Sim ledger' (s.goto t pc) := by
  have hpc : ∀ u, u ≠ t → (s.goto t pc).pc u = s.pc u := fun u hu => goto_pc_of_ne s pc hu
  have hself := goto_pc s t pc
  have hinv : Inv (s.goto t pc) := by
    refine h.toInv.move rfl rfl rfl hpc ((congrArg Pc.ticket hself).trans hticket)
      ((congrArg Pc.Fits hself).mpr hfits) (fun _ _ => id)
      (fun row hrow hthread hselected hresting => ?_)
      (h.toInv.awaited_of hpc (fun _ _ => id) (fun _ => id) hnot fun ticket hp => ?_)
    · rw [hself] at hresting
      exact hready hresting row hrow hthread hselected
    · rw [hself] at hp
      exact hsleep ticket hp
  refine h.move hinv rfl hpc hqueue howing hexcused ?_ ?_ ?_ <;> rw [hself]
  · exact howes
  · exact hzero
  · exact hfinish

/-- A line of the same call with the same ticket, reached without an event. -/
theorem Sim.keptGoto (hticket : pc.ticket = (s.pc t).ticket) (hfits : pc.Fits)
    (hready : pc.resting = true → ∀ row ∈ s.rows, row.thread = t → row.selected = true →
      s.event t = true) (hnot : ∀ address, ¬(s.pc t).Releases address)
    (hsleep : ∀ ticket, pc = .timedSleep ticket → s.locked ticket.key.address = true)
    (howes : pc.owes = (s.pc t).owes)
    (hzero : pc.claimsZero = true → (s.pc t).claimsZero = true ∨ ledger.excused t = true)
    (hfinish : ∀ ticket, pc = .waitFinish ticket 0 → ledger.excused t = true ∨
      ∃ row ∈ s.rows, row.thread = t ∧ row.selected = true) : Kept ledger (s.goto t pc, none) :=
  ⟨ledger, rfl, h.goto hticket hfits hready hnot hsleep rfl (fun _ _ => rfl) (fun _ _ => rfl)
    ((h.owing t).trans howes.symm) (fun hz => (hzero hz).elim (h.excused t) id) hfinish⟩

theorem Sim.consume (hticket : pc.ticket = (s.pc t).ticket) (hfits : pc.Fits)
    (hresting : pc.resting = false) (hnot : ∀ address, ¬(s.pc t).Releases address)
    (hsleep : ∀ ticket, pc ≠ .timedSleep ticket) (howes : pc.owes = (s.pc t).owes)
    (hzero : pc.claimsZero = false) (hfinish : ∀ ticket, pc ≠ .waitFinish ticket 0) :
    Kept ledger ({ s with event := Function.update s.event t false }.goto t pc, none) := by
  have hself := goto_pc { s with event := Function.update s.event t false } t pc
  have hpc : ∀ u, u ≠ t →
      ({ s with event := Function.update s.event t false }.goto t pc).pc u = s.pc u :=
    fun u hu => goto_pc_of_ne _ pc hu
  have hevent : ∀ u, u ≠ t → s.event u = true →
      ({ s with event := Function.update s.event t false }.goto t pc).event u = true :=
    fun u hu hset => (Function.update_of_ne hu _ _).trans hset
  refine ⟨ledger, rfl, h.move (h.toInv.move rfl rfl rfl hpc ((congrArg Pc.ticket hself).trans hticket)
    ((congrArg Pc.Fits hself).mpr hfits) hevent (fun row _ _ _ hrest => ?_)
    (h.toInv.awaited_of hpc hevent (fun _ => id) hnot
      fun ticket hp => absurd (hself.symm.trans hp) (hsleep ticket))) rfl hpc rfl
    (fun _ _ => rfl) (fun _ _ => rfl) ?_ ?_ fun ticket hp =>
      absurd (hself.symm.trans hp) (hfinish ticket)⟩
  · rw [hself, hresting] at hrest
    cases hrest
  · rw [hself, howes]
    exact h.owing t
  · rw [hself, hzero]
    exact nofun

theorem Sim.lock (address : Nat) :
    Sim ledger { s with locked := Function.update s.locked address true } := by
  refine ⟨{ h.toInv with awaited := fun u ticket hu hunset hfree => ?_ }, h.queue, h.owing,
    h.excused, h.finishing⟩
  by_cases hsame : ticket.key.address = address
  · exact absurd ((Function.update_self ..).symm.trans (hsame ▸ hfree)) (by simp)
  · exact h.awaited u ticket hu hunset ((Function.update_of_ne hsame _ _).symm.trans hfree)

/-! ### Registering and finishing -/

/-- A thread without a ticket takes one; `ledger'` has the new row. -/
theorem Sim.register {key : Key} {timed : Bool} (hnone : (s.pc t).ticket = none)
    (hticket : pc.ticket = some ⟨key, s.tokens, timed⟩) (hfits : pc.Fits)
    (hsleep : ∀ ticket, pc ≠ .timedSleep ticket) (hnot : ∀ address, ¬(s.pc t).Releases address)
    (hqueue : ledger'.queue =
      ledger.queue ++ [(⟨s.tokens, t, key, false⟩ : Row)].filterMap Row.entry)
    (howing : ledger'.owing = ledger.owing) (howes : pc.owes = (s.pc t).owes)
    (hexcused : ∀ u, u ≠ t → ledger'.excused u = ledger.excused u) (hzero : pc.claimsZero = false)
    (hfinish : ∀ ticket, pc ≠ .waitFinish ticket 0) :
    Sim ledger' ((s.register t key).goto t pc) := by
  have hself := goto_pc (s.register t key) t pc
  refine h.step (h.toInv.register hnone hticket hfits hsleep hnot)
    (fun u hu => goto_pc_of_ne _ pc hu) ?_
    (fun row hrow _ hselected => ⟨row, List.mem_append_left _ hrow, rfl, hselected⟩)
    (fun u _ => congrFun howing u) hexcused ?_ ?_
    fun ticket hp => absurd (hself.symm.trans hp) (hfinish ticket)
  · rw [hqueue, h.queue]
    exact List.filterMap_append.symm
  · rw [hself, howes, howing]
    exact h.owing t
  · rw [hself, hzero]
    exact nofun

variable {ticket : Ticket}

theorem Sim.finish (hticket : (s.pc t).ticket = some ticket)
    (hnone : pc.ticket = none) (hfits : pc.Fits) (hnot : ∀ address, ¬(s.pc t).Releases address)
    (hqueue : ledger'.queue = ledger.queue.filter (·.thread ≠ t))
    (howing : ∀ u, u ≠ t → ledger'.owing u = ledger.owing u) (howes : ledger'.owing t = pc.owes)
    (hexcused : ledger'.excused = ledger.excused)
    (hzero : pc.claimsZero = true → ledger.excused t = true) :
    Sim ledger' ((s.finish ticket).goto t pc) := by
  have hself := goto_pc (s.finish ticket) t pc
  have hrows : ((s.finish ticket).goto t pc).rows = s.rows.filter (·.thread ≠ t) :=
    h.toInv.finish_rows hticket
  refine h.step (h.toInv.finish hticket hnone hfits hnot) (fun u hu => goto_pc_of_ne _ pc hu) ?_
    (fun row hrow hne hselected => ⟨row, ?_, rfl, hselected⟩) howing
    (fun u _ => congrFun hexcused u) ?_ ?_ fun other hp => ?_
  · rw [hqueue, h.queue, hrows, filterMap_entry_filter]
  · rw [hrows]
    exact List.mem_filter.mpr ⟨hrow, by simpa using hne⟩
  · rw [hself]
    exact howes
  · rw [hself, hexcused]
    exact hzero
  · rw [hself] at hp
    rw [hp] at hnone
    cases hnone

theorem Sim.chosen_eq (hticket : (s.pc t).ticket = some ticket)
    (hcondition : ticket.key.condition = true) :
    (ledger.queue.find? fun entry => entry.thread = t && entry.chosen).map Entry.address =
      if s.selected ticket then some ticket.key.address else none := by
  have hkey : ∀ row ∈ s.rows, row.thread = t → row.key = ticket.key := fun row hrow hthread =>
    (Row.isOf_iff.mp ((h.toInv.isOf_iff hticket hrow).mpr hthread)).1
  cases hfind : ledger.queue.find? fun entry => entry.thread = t && entry.chosen with
  | none =>
    refine (if_neg fun hselected => ?_).symm
    obtain ⟨row, hrow, hthread, hrowselected⟩ := (h.toInv.selected_iff hticket).mp hselected
    have hentry := (mem_queue h).mpr ⟨row, hrow, by rw [hkey row hrow hthread, hcondition], rfl⟩
    exact List.find?_eq_none.mp hfind _ hentry (by simp [hthread, hrowselected])
  | some entry =>
    obtain ⟨row, hrow, -, rfl⟩ := (mem_queue h).mp (List.mem_of_find?_eq_some hfind)
    have hboth := List.find?_some hfind
    simp only [Bool.and_eq_true, decide_eq_true_eq] at hboth
    rw [if_pos ((h.toInv.selected_iff hticket).mpr ⟨row, hrow, hboth⟩), Option.map_some,
      hkey row hrow hboth.1]

/-- From here on the waiter of a condition owes the signal that it was given. -/
theorem Sim.leave (hticket : (s.pc t).ticket = some ticket)
    (hcondition : ticket.key.condition = true) (hnone : pc.ticket = none) (hfits : pc.Fits)
    (hnot : ∀ address, ¬(s.pc t).Releases address)
    (howes : pc.owes = if s.selected ticket then some ticket.key.address else none)
    (hzero : pc.claimsZero = true → ledger.excused t = true) :
    Kept ledger ((s.finish ticket).goto t pc, some (.left t)) := by
  refine ⟨_, rfl, h.finish hticket hnone hfits hnot rfl
    (fun u hu => Function.update_of_ne hu _ _) ?_ rfl hzero⟩
  rw [howes, ← h.chosen_eq hticket hcondition]
  exact Function.update_self ..

/-! ### Signals -/

/-- A thread without a ticket signals; `after` has the rows it leaves. -/
theorem Sim.afterSignal {key : Key} {all : Bool}
    (hinv : Inv ((s.signal key all).1.goto t pc)) (hnone : pc.ticket = none)
    (hqueue : ledger'.queue =
      (s.rows.map (Row.signalled key (s.signal key all).2)).filterMap Row.entry)
    (howing : ∀ u, u ≠ t → ledger'.owing u = ledger.owing u) (howes : ledger'.owing t = pc.owes)
    (hexcused : ledger'.excused = ledger.excused) (hzero : pc.claimsZero = false) :
    Sim ledger' ((s.signal key all).1.goto t pc) := by
  have hself := goto_pc (s.signal key all).1 t pc
  have hrows : ((s.signal key all).1.goto t pc).rows =
      s.rows.map (Row.signalled key (s.signal key all).2) := h.toInv.signal_rows key all
  refine h.step hinv (fun u hu => goto_pc_of_ne _ pc hu) (hrows ▸ hqueue)
    (fun row hrow _ hselected => ⟨row.signalled key (s.signal key all).2, ?_,
      Row.signalled_thread _ _ _, Row.signalled_selected_of _ _ _ hselected⟩) howing
    (fun u _ => congrFun hexcused u) ?_ ?_ fun ticket hp => ?_
  · rw [hrows]
    exact List.mem_map_of_mem hrow
  · rw [hself]
    exact howes
  · rw [hself, hzero]
    exact nofun
  · rw [hself] at hp
    rw [hp] at hnone
    cases hnone

theorem Sim.signal (hqueue : ledger'.queue = ledger.queue)
    (howing : ∀ u, u ≠ t → ledger'.owing u = ledger.owing u) (hpaid : ledger'.owing t = none)
    (hexcused : ledger'.excused = ledger.excused) (hwas : (s.pc t).ticket = none)
    (hnone : pc.ticket = none) (hfits : pc.Fits) (hnot : ∀ address, ¬(s.pc t).Releases address)
    (howes : pc.owes = none) (hzero : pc.claimsZero = false) (address : Nat) (all : Bool) :
    ∃ after, ledger'.signalled address all (s.signal ⟨address, true⟩ all).2 = some after ∧
      Sim after ((s.signal ⟨address, true⟩ all).1.goto t pc) := by
  have hdue : ledger'.due address = (s.rows.filter (·.open ⟨address, true⟩)).map Row.thread := by
    rw [Ledger.due, hqueue, h.queue]
    exact due_filterMap s.rows address
  have hinv : Inv ((s.signal ⟨address, true⟩ all).1.goto t pc) := by
    refine h.toInv.signal hwas hnone hfits fun u ticket _ hu hunset hfree => ?_
    rw [signal_event, Bool.or_eq_false_iff] at hunset
    obtain ⟨v, hv⟩ := h.awaited u ticket hu hunset.2 hfree
    exact ⟨v, fun heq => hnot _ (heq ▸ hv), hv⟩
  refine ⟨_, if_pos ?_, h.afterSignal hinv hnone ?_ howing (hpaid.trans howes.symm) hexcused hzero⟩
  · rw [hdue]
    exact h.toInv.signal_woken ⟨address, true⟩ all
  · rw [List.filterMap_map, Ledger.choose, hqueue, h.queue, List.map_filterMap]
    exact List.filterMap_congr fun row _ => (entry_signalled row address _).symm

variable {address : Nat}

theorem Sim.released (hpc : s.pc t = .releasedSignal address) :
    Sim ledger ((s.signal ⟨address, false⟩ true).1.goto t .idle) := by
  have hwas : (s.pc t).ticket = none := by rw [hpc]; rfl
  refine h.afterSignal (h.toInv.signal hwas rfl trivial fun u ticket _ hu hunset hfree => ?_) rfl
    ?_ (fun _ _ => rfl) ((h.owing t).trans (by rw [hpc]; rfl)) rfl rfl
  · rw [signal_event, Bool.or_eq_false_iff, decide_eq_false_iff_not] at hunset
    obtain ⟨v, hv⟩ := h.awaited u ticket hu hunset.2 hfree
    refine ⟨v, fun heq => hunset.1 ?_, hv⟩
    have haddress : ticket.key.address = address := by
      rw [heq, hpc] at hv
      simpa [Pc.Releases, eq_comm] using hv
    have hcondition : ticket.key.condition = false := by
      have hfits := h.fits u
      rw [hu] at hfits
      exact hfits
    obtain ⟨row, hrow, hthread, hisOf⟩ := h.ticketed u ticket (by rw [hu]; rfl)
    rw [h.toInv.signal_woken]
    refine List.mem_map.mpr ⟨row, List.mem_filter.mpr ⟨hrow, ?_⟩, hthread⟩
    have hkey : row.key = ⟨address, false⟩ := by
      rw [(Row.isOf_iff.mp hisOf).1, ← haddress, ← hcondition]
    simp [Row.open, hkey]
  · rw [h.queue, List.filterMap_map]
    refine List.filterMap_congr fun row _ => ?_
    unfold Function.comp Row.signalled
    split
    · next hboth =>
      have hkey : row.key = ⟨address, false⟩ := by
        have hopen := hboth.1
        simp only [Row.open, Bool.and_eq_true, decide_eq_true_eq] at hopen
        exact hopen.1
      simp [Row.entry, hkey]
    · rfl

omit h

/-! ### One step -/

/-- A chosen waiter does not drop its ticket, and locks its mutex again. -/
def Permitted (now : State × Option Ledger) : Input → Prop
  | .step t answer =>
    match now.1.pc t with
    | .waitDrop ticket _ => now.1.selected ticket = false
    | .waitRelock _ true _ | .waitDeliver _ true _ => answer = 0 ∨ answer = eownerdead
    | _ => True
  | _ => True

section

variable (h : Sim ledger s)
include h

theorem Sim.unticketed (hwas : (s.pc t).ticket = none) (hnone : pc.ticket = none)
    (hfits : pc.Fits) (hnot : ∀ address, ¬(s.pc t).Releases address)
    (howes : pc.owes = (s.pc t).owes)
    (hzero : pc.claimsZero = true → (s.pc t).claimsZero = true ∨ ledger.excused t = true) :
    Kept ledger (s.goto t pc, none) := by
  refine h.keptGoto (hnone.trans hwas.symm) hfits (fun _ row hrow hthread => ?_) hnot
    (fun ticket hp => ?_) howes hzero fun ticket hp => ?_
  · exact absurd hthread (h.toInv.rowless hwas row hrow)
  · rw [hp] at hnone
    cases hnone
  · rw [hp] at hnone
    cases hnone

theorem Sim.idle (hwas : (s.pc t).ticket = none)
    (hnot : ∀ address, ¬(s.pc t).Releases address) (howes : (s.pc t).owes = none) :
    Sim ledger (s.goto t .idle) := by
  obtain ⟨after, heq, hafter⟩ := h.unticketed hwas (rfl : Pc.idle.ticket = none) trivial hnot howes.symm
    nofun
  cases heq
  exact hafter

theorem Sim.returned {code : Nat} (hwas : (s.pc t).ticket = none)
    (hnot : ∀ address, ¬(s.pc t).Releases address)
    (howing : (s.pc t).owes ≠ none → code = 0 ∨ code = eownerdead)
    (hzero : (s.pc t).owes = none → code = 0 → ledger.excused t = true) :
    Kept ledger (s.goto t .idle, some (.returned t code)) := by
  have hqueue := h.unqueued hwas
  have howed := h.owing t
  cases howes : (s.pc t).owes with
  | none =>
    refine ⟨ledger, ?_, h.idle hwas hnot howes⟩
    rw [howes] at howed
    have hnot : ¬(code = 0 ∧ ledger.excused t = false) := fun ⟨hcode, hfalse⟩ => by
      rw [hzero howes hcode] at hfalse
      cases hfalse
    simp only [Ledger.accept, if_neg hqueue, howed, Option.isSome_none, Bool.false_eq_true,
      if_false, if_neg hnot]
  | some address =>
    rw [howes] at howed
    refine ⟨{ ledger with owing := Function.update ledger.owing t none }, ?_, ?_⟩
    · simp only [Ledger.accept, if_neg hqueue, howed, Option.isSome_some, if_true,
        if_pos (howing (by simp [howes]))]
    · refine h.goto hwas.symm trivial nofun hnot
        nofun rfl (fun u hu => Function.update_of_ne hu _ _) (fun _ _ => rfl)
        (Function.update_self ..) nofun nofun

theorem Sim.test {selected : Bool} {answer : Nat}
    {otherwise : State × Option Event} (hwas : (s.pc t).ticket = none)
    (hnot : ∀ address, ¬(s.pc t).Releases address)
    (howes : (s.pc t).owes = if selected then some address else none)
    (hotherwise : Kept ledger otherwise) :
    Kept ledger (s.test t address selected answer otherwise) := by
  unfold State.test
  split
  · exact hotherwise
  · cases selected with
    | false | true =>
      exact h.unticketed hwas rfl trivial hnot howes.symm nofun

theorem Sim.releasing (hpc : s.pc t = .releasing address) :
    Kept ledger ({ s with locked := Function.update s.locked address false }.goto t
      (.releasedCheck address), none) := by
  have hself := goto_pc { s with locked := Function.update s.locked address false } t
    (.releasedCheck address)
  have hothers : ∀ u, u ≠ t → ({ s with locked := Function.update s.locked address false }.goto t
      (.releasedCheck address)).pc u = s.pc u := fun u hu => goto_pc_of_ne _ _ hu
  refine ⟨ledger, rfl, h.move (h.toInv.move rfl rfl rfl hothers ?_ ?_ (fun _ _ => id) ?_
    fun u ticket hu hunset hfree => ?_) rfl hothers rfl (fun _ _ => rfl) (fun _ _ => rfl) ?_ ?_ ?_⟩
  · rw [hself, hpc]
    rfl
  · rw [hself]
    trivial
  · rw [hself]
    exact nofun
  · by_cases hsame : ticket.key.address = address
    · exact ⟨t, by rw [hself, hsame]; exact .inl rfl⟩
    · have hut : u ≠ t := fun heq => by
        rw [heq, hself] at hu
        cases hu
      rw [hothers u hut] at hu
      obtain ⟨v, hv⟩ := h.awaited u ticket hu hunset
        ((Function.update_of_ne hsame _ _).symm.trans hfree)
      have hvt : v ≠ t := fun heq => by simp [heq, hpc, Pc.Releases] at hv
      exact ⟨v, by rw [hothers v hvt]; exact hv⟩
  · rw [hself, h.owing, hpc]
    rfl
  · rw [hself]
    exact nofun
  · rw [hself]
    exact nofun

theorem Sim.releasedCheck (hpc : s.pc t = .releasedCheck address) :
    Kept ledger (s.goto t (if s.timedWaiters = 0 then .idle else .releasedSignal address),
      none) := by
  have hnext : ∀ pc : Pc, pc.ticket = none → pc.Fits → pc.owes = none → pc.claimsZero = false →
      (pc.Releases address ∨ ∀ u ticket, s.pc u ≠ .timedSleep ticket) →
      Kept ledger (s.goto t pc, none) := by
    intro pc hnone hfits howes hzero htold
    have hself := goto_pc s t pc
    have hothers : ∀ u, u ≠ t → (s.goto t pc).pc u = s.pc u := fun u hu => goto_pc_of_ne _ _ hu
    refine ⟨ledger, rfl, h.move (h.toInv.move rfl rfl rfl hothers ?_ ?_ (fun _ _ => id)
      (fun row hrow hthread => ?_) fun u ticket hu hunset hfree => ?_) rfl hothers rfl
      (fun _ _ => rfl) (fun _ _ => rfl) ?_ ?_ fun ticket hp => ?_⟩
    · rw [hself, hnone, hpc]
      rfl
    · rw [hself]
      exact hfits
    · exact absurd hthread (h.toInv.rowless (by rw [hpc]; rfl) row hrow)
    · have hut : u ≠ t := fun heq => by
        rw [heq, hself] at hu
        rw [hu] at hnone
        cases hnone
      rw [hothers u hut] at hu
      rcases htold with hreleases | hnobody
      · obtain ⟨v, hv⟩ := h.awaited u ticket hu hunset hfree
        by_cases hvt : v = t
        · have haddress : address = ticket.key.address := by
            simpa [hvt, hpc, Pc.Releases] using hv
          exact ⟨t, by rw [hself, ← haddress]; exact hreleases⟩
        · exact ⟨v, by rw [hothers v hvt]; exact hv⟩
      · exact absurd hu (hnobody u ticket)
    · rw [hself, howes, h.owing, hpc]
      rfl
    · rw [hself, hzero]
      exact nofun
    · rw [hself] at hp
      rw [hp] at hnone
      cases hnone
  split
  · next hnobody =>
    refine hnext .idle rfl trivial rfl rfl (.inr fun u ticket hu => ?_)
    obtain ⟨row, hrow, -, hisOf⟩ := h.ticketed u ticket (by rw [hu]; rfl)
    have hfits := h.fits u
    rw [hu] at hfits
    have hcount := h.counted.symm.trans hnobody
    have hcondition := List.countP_eq_zero.mp hcount row hrow
    rw [(Row.isOf_iff.mp hisOf).1, show ticket.key.condition = false from hfits] at hcondition
    exact hcondition rfl
  · exact hnext (.releasedSignal address) rfl trivial rfl rfl (.inl (.inr rfl))

theorem Sim.interrupting {thread : Thread}
    (hpc : s.pc t = .interrupting thread) (wakes : Thread → Bool) :
    Kept ledger ({ s with event := fun u => s.event u || wakes u }.goto t .idle, none) := by
  have hself := goto_pc { s with event := fun u => s.event u || wakes u } t .idle
  have hothers : ∀ u, u ≠ t → ({ s with event := fun u => s.event u || wakes u }.goto t .idle).pc u
      = s.pc u := fun u hu => goto_pc_of_ne _ _ hu
  have hevent : ∀ u, u ≠ t → s.event u = true →
      ({ s with event := fun u => s.event u || wakes u }.goto t .idle).event u = true :=
    fun u _ hset => Bool.or_eq_true_iff.mpr (.inl hset)
  refine ⟨ledger, rfl, h.move (h.toInv.move rfl rfl rfl hothers ?_ ?_ hevent ?_
    (h.toInv.awaited_of hothers hevent (fun _ => id) ?_ fun ticket hp => ?_)) rfl hothers rfl
    (fun _ _ => rfl) (fun _ _ => rfl) ?_ ?_ ?_⟩
  · rw [hself, hpc]
    rfl
  · rw [hself]
    trivial
  · rw [hself]
    exact nofun
  · simp [hpc, Pc.Releases]
  · rw [hself] at hp
    cases hp
  · rw [hself, h.owing, hpc]
    rfl
  · rw [hself]
    exact nofun
  · rw [hself]
    exact nofun

end

theorem Pc.owes_of_ticket (h : pc.ticket = some ticket) :
    pc.owes = none ∧ pc.claimsZero = false ∧ ∀ address, ¬pc.Releases address := by
  cases pc <;> simp_all [Pc.ticket, Pc.owes, Pc.claimsZero, Pc.Releases]

/-- The lines between a release and telling the waiters. -/
def Pc.telling : Pc → Bool
  | .releasedCheck _ | .releasedSignal _ => true
  | _ => false

theorem Pc.not_releases (h : pc.telling = false) (address : Nat) : ¬pc.Releases address := by
  rintro (rfl | rfl) <;> cases h

section

variable (h : Sim ledger s)
include h

/-- A line with a ticket, reached from another with the same ticket. -/
theorem Sim.ticketed_goto (hwas : (s.pc t).ticket = some ticket)
    (hticket : pc.ticket = some ticket) (hfits : pc.Fits)
    (hready : pc.resting = true → (s.pc t).resting = true ∨ s.selected ticket = false)
    (hsleep : ∀ ticket, pc = .timedSleep ticket → s.locked ticket.key.address = true)
    (hqueue : ledger'.queue = ledger.queue) (howing : ledger'.owing = ledger.owing)
    (hexcused : ∀ u, u ≠ t → ledger'.excused u = ledger.excused u)
    (hfinish : ∀ other, pc = .waitFinish other 0 → ledger'.excused t = true ∨
      s.selected ticket = true) : Sim ledger' (s.goto t pc) := by
  obtain ⟨howed, -, hnot⟩ := Pc.owes_of_ticket hwas
  obtain ⟨howes, hzero, -⟩ := Pc.owes_of_ticket hticket
  refine h.goto (hticket.trans hwas.symm) hfits (fun hresting row hrow hthread hselected => ?_) hnot
    hsleep hqueue (fun u _ => congrFun howing u) hexcused ?_ (fun hz => ?_) fun other hp => ?_
  · rcases hready hresting with hrest | hunselected
    · rw [← hthread] at hrest ⊢
      exact h.ready row hrow hselected hrest
    · rw [(h.toInv.selected_iff hwas).mpr ⟨row, hrow, hthread, hselected⟩] at hunselected
      cases hunselected
  · rw [howing, h.owing, howed, howes]
  · rw [hzero] at hz
    cases hz
  · exact (hfinish other hp).imp_right (h.toInv.selected_iff hwas).mp

theorem Sim.waiting (hwas : (s.pc t).ticket = some ticket)
    (hticket : pc.ticket = some ticket) (hfits : pc.Fits)
    (hready : pc.resting = true → (s.pc t).resting = true ∨ s.selected ticket = false)
    (hsleep : ∀ ticket, pc = .timedSleep ticket → s.locked ticket.key.address = true)
    (hfinish : ∀ other, pc ≠ .waitFinish other 0) : Kept ledger (s.goto t pc, none) :=
  ⟨ledger, rfl, h.ticketed_goto hwas hticket hfits hready hsleep rfl rfl (fun _ _ => rfl)
    fun other hp => absurd hp (hfinish other)⟩

theorem Sim.noticed (hwas : (s.pc t).ticket = some ticket)
    (hcondition : ticket.key.condition = true) :
    Kept ledger (s.goto t (.waitFinish ticket 0), some (.noticed t)) :=
  ⟨_, rfl, h.ticketed_goto hwas rfl hcondition nofun
    nofun rfl rfl (fun u hu => Function.update_of_ne hu _ _)
    fun _ _ => .inl (Function.update_self ..)⟩

theorem Sim.waitRegister {timed : Bool}
    (hpc : s.pc t = .waitRegister address timed) (answer : Nat) :
    Kept ledger (s.advance t answer) := by
  have hnone : (s.pc t).ticket = none := by rw [hpc]; rfl
  have howing : ledger.owing t = none := (h.owing t).trans (by rw [hpc]; rfl)
  simp only [State.advance, hpc]
  refine ⟨_, if_neg (by simp [h.unqueued hnone, howing]), h.register hnone rfl rfl
    nofun (by simp [hpc, Pc.Releases]) rfl rfl (by rw [hpc]; rfl)
    (fun u hu => Function.update_of_ne hu _ _) rfl nofun⟩

theorem Sim.timedRegister (hpc : s.pc t = .timedRegister address) (answer : Nat) :
    Kept ledger (s.advance t answer) := by
  have hnone : (s.pc t).ticket = none := by rw [hpc]; rfl
  simp only [State.advance, hpc]
  exact ⟨ledger, rfl, h.register hnone rfl rfl nofun
    (by simp [hpc, Pc.Releases]) (List.append_nil _).symm rfl (by rw [hpc]; rfl) (fun _ _ => rfl)
    rfl nofun⟩

theorem Sim.timedFinish (hpc : s.pc t = .timedFinish ticket) (answer : Nat) :
    Kept ledger (s.advance t answer) := by
  have hticket : (s.pc t).ticket = some ticket := by rw [hpc]; rfl
  have hcondition : ticket.key.condition = false := by
    have hfits := h.fits t
    rw [hpc] at hfits
    exact hfits
  obtain ⟨howes, -, hnot⟩ := Pc.owes_of_ticket hticket
  simp only [State.advance, hpc]
  refine ⟨ledger, rfl, h.finish hticket rfl trivial hnot ?_ (fun _ _ => rfl)
    ((h.owing t).trans howes) rfl nofun⟩
  refine (List.filter_eq_self.mpr fun entry hentry => ?_).symm
  obtain ⟨row, hrow, hrowcondition, rfl⟩ := (mem_queue h).mp hentry
  have hne : row.thread ≠ t := fun heq => by
    rw [(Row.isOf_iff.mp ((h.toInv.isOf_iff hticket hrow).mpr heq)).1, hcondition] at hrowcondition
    cases hrowcondition
  simpa using hne

theorem Sim.advance (answer : Nat) (howner : Option Ledger)
    (hok : Permitted (s, howner) (.step t answer)) : Kept ledger (s.advance t answer) := by
  have hfits := h.fits t
  have hticket : ∀ {pc : Pc} {ticket : Ticket}, s.pc t = pc → pc.ticket = some ticket →
      (s.pc t).ticket = some ticket := fun hpc heq => hpc ▸ heq
  have hnone : ∀ {pc : Pc}, s.pc t = pc → pc.ticket = none → (s.pc t).ticket = none :=
    fun hpc heq => hpc ▸ heq
  have hnot : ∀ {pc : Pc}, s.pc t = pc → pc.telling = false →
      ∀ address, ¬(s.pc t).Releases address := fun hpc heq => hpc ▸ Pc.not_releases heq
  cases hpc : s.pc t with
  | waitRegister address timed => exact h.waitRegister hpc answer
  | timedRegister address => exact h.timedRegister hpc answer
  | timedFinish ticket => exact h.timedFinish hpc answer
  | idle =>
    simp only [State.advance, hpc]
    exact ⟨ledger, rfl, h⟩
  | waitStart address timed =>
    simp only [State.advance, hpc]
    split
    · exact h.unticketed (hnone hpc rfl) rfl trivial (hnot hpc rfl) (by rw [hpc]; rfl) nofun
    · exact h.unticketed (hnone hpc rfl) rfl trivial (hnot hpc rfl) (by rw [hpc]; rfl) nofun
  | waitUnlock ticket =>
    rw [hpc] at hfits
    simp only [State.advance, hpc]
    split
    · exact h.waiting (hticket hpc rfl) rfl hfits nofun nofun nofun
    · next hcode =>
      exact h.waiting (hticket hpc rfl) rfl ⟨hfits, hcode⟩ nofun nofun nofun
  | waitDrop ticket code =>
    rw [hpc] at hfits
    simp only [Permitted, hpc] at hok
    simp only [State.advance, hpc]
    exact h.leave (hticket hpc rfl) hfits.1 rfl ⟨hok, hfits.2⟩ (hnot hpc rfl) (by rw [hok]; rfl)
      nofun
  | waitReturn selected code =>
    rw [hpc] at hfits
    simp only [State.advance, hpc]
    refine h.returned (hnone hpc rfl) (hnot hpc rfl) (fun howes => ?_)
      fun _ hcode => absurd hcode hfits.2
    exact absurd (by rw [hpc]; rfl) howes
  | waitCancel ticket =>
    rw [hpc] at hfits
    simp only [State.advance, hpc]
    split
    · exact h.waiting (hticket hpc rfl) rfl hfits nofun nofun nofun
    · exact h.noticed (hticket hpc rfl) hfits
  | waitSelected ticket =>
    rw [hpc] at hfits
    simp only [State.advance, hpc]
    split
    · next hselected =>
      exact ⟨ledger, rfl, h.ticketed_goto (hticket hpc rfl) rfl hfits
        nofun nofun rfl rfl (fun _ _ => rfl)
        fun _ _ => .inr hselected⟩
    · next hselected =>
      exact h.waiting (hticket hpc rfl) rfl hfits (fun _ => .inr (by simpa using hselected))
        nofun nofun
  | waitInterrupt ticket =>
    rw [hpc] at hfits
    simp only [State.advance, hpc]
    split
    · exact h.waiting (hticket hpc rfl) rfl hfits (fun _ => .inl (by rw [hpc]; rfl)) nofun nofun
    · exact h.noticed (hticket hpc rfl) hfits
  | waitArm ticket =>
    rw [hpc] at hfits
    simp only [State.advance, hpc]
    split
    · next hfailed =>
      exact h.waiting (hticket hpc rfl) rfl hfits nofun
        nofun fun _ hp => hfailed.2 (Pc.waitFinish.inj hp).2
    · exact h.waiting (hticket hpc rfl) rfl hfits (fun _ => .inl (by rw [hpc]; rfl)) nofun nofun
  | waitSleep ticket =>
    rw [hpc] at hfits
    simp only [State.advance, hpc]
    split
    · split
      · exact h.consume (hticket hpc rfl).symm hfits rfl (hnot hpc rfl) nofun
          (by rw [hpc]; rfl) rfl nofun
      · exact ⟨ledger, rfl, h⟩
    · split
      · exact h.waiting (hticket hpc rfl) rfl hfits nofun nofun nofun
      · exact h.waiting (hticket hpc rfl) rfl hfits nofun
          nofun fun _ hp => nomatch (Pc.waitFinish.inj hp).2
  | waitFinish ticket result =>
    rw [hpc] at hfits
    simp only [State.advance, hpc]
    refine h.leave (hticket hpc rfl) hfits rfl trivial (hnot hpc rfl) rfl fun hzero => ?_
    cases hselected : s.selected ticket with
    | true =>
      rw [hselected] at hzero
      cases hzero
    | false =>
      rw [hselected] at hzero
      have hresult : result = 0 := by simpa [Pc.claimsZero] using hzero
      refine (h.finishing t ticket (hresult ▸ hpc)).resolve_right fun hrow => ?_
      rw [(h.toInv.selected_iff (hticket hpc rfl)).mpr hrow] at hselected
      cases hselected
  | waitRelock address selected result =>
    simp only [Permitted, hpc] at hok
    simp only [State.advance, hpc]
    split
    · next hfailed =>
      refine h.returned (hnone hpc rfl) (hnot hpc rfl) (fun howes => ?_)
        fun _ hcode => absurd hcode hfailed.1
      cases selected with
      | true => exact hok
      | false => exact absurd (by rw [hpc]; rfl) howes
    · next hlocked =>
      refine h.unticketed (hnone hpc rfl) rfl ?_ (hnot hpc rfl) (by rw [hpc]; rfl)
        fun hzero => .inl (by rw [hpc]; cases selected <;> exact hzero)
      exact Classical.or_iff_not_imp_left.mpr fun hcode => by simpa [hcode] using hlocked
  | waitTest address selected result error =>
    rw [hpc] at hfits
    simp only [State.advance, hpc]
    refine h.test (hnone hpc rfl) (hnot hpc rfl) (by rw [hpc]; rfl) ?_
    split
    · next hcode =>
      exact h.returned (hnone hpc rfl) (hnot hpc rfl) (fun _ => hfits)
        fun _ hzero => absurd hzero hcode
    · exact h.unticketed (hnone hpc rfl) rfl trivial (hnot hpc rfl) (by rw [hpc]; rfl)
        fun hzero => .inl (by rw [hpc]; cases selected <;> exact hzero)
  | waitDeliver address selected result =>
    simp only [Permitted, hpc] at hok
    simp only [State.advance, hpc]
    split
    · next hfailed =>
      refine h.returned (hnone hpc rfl) (hnot hpc rfl) (fun howes => ?_)
        fun _ hcode => absurd hcode hfailed
      cases selected with
      | true => exact hok
      | false => exact absurd (by rw [hpc]; rfl) howes
    · exact h.unticketed (hnone hpc rfl) rfl trivial (hnot hpc rfl) (by rw [hpc]; rfl)
        fun hzero => .inl (by rw [hpc]; cases selected <;> exact hzero)
  | waitRetest address selected result =>
    simp only [State.advance, hpc]
    refine h.test (hnone hpc rfl) (hnot hpc rfl) (by rw [hpc]; rfl) ?_
    cases selected with
    | true =>
      refine h.returned (hnone hpc rfl) (hnot hpc rfl) (fun _ => .inl rfl) fun howes _ => ?_
      rw [hpc] at howes
      cases howes
    | false =>
      refine h.returned (hnone hpc rfl) (hnot hpc rfl) (fun howes => ?_) fun _ hcode => ?_
      · exact absurd (by rw [hpc]; rfl) howes
      · exact h.excused t (by rw [hpc]; exact decide_eq_true hcode)
  | waitReplace address =>
    simp only [State.advance, hpc]
    have hqueue : ({ ledger with owing := Function.update ledger.owing t none } : Ledger).queue =
        ledger.queue := rfl
    have howed : ledger.owing t = some address := (h.owing t).trans (by rw [hpc]; rfl)
    simp only [Kept, Ledger.accept, if_pos howed]
    exact h.signal hqueue (fun u hu => Function.update_of_ne hu _ _) (Function.update_self ..) rfl
      (hnone hpc rfl) (rfl : Pc.waitExit.ticket = none) trivial (hnot hpc rfl) rfl rfl address false
  | waitExit =>
    simp only [State.advance, hpc]
    have howes : (s.pc t).owes = none := by rw [hpc]; rfl
    exact ⟨ledger, if_neg (by simp [h.unqueued (hnone hpc rfl), h.owing, howes]),
      h.idle (hnone hpc rfl) (hnot hpc rfl) howes⟩
  | timedArm ticket =>
    rw [hpc] at hfits
    simp only [State.advance, hpc]
    split
    · exact h.waiting (hticket hpc rfl) rfl hfits nofun nofun nofun
    · exact h.waiting (hticket hpc rfl) rfl hfits nofun nofun nofun
  | timedTry ticket =>
    rw [hpc] at hfits
    simp only [State.advance, hpc]
    split
    · next hlocked =>
      refine h.waiting (hticket hpc rfl) rfl hfits nofun (fun other hp => ?_) nofun
      cases hp
      exact hlocked
    · exact (h.lock ticket.key.address).waiting (hticket hpc rfl) rfl hfits nofun nofun nofun
  | timedSleep ticket =>
    rw [hpc] at hfits
    simp only [State.advance, hpc]
    split
    · split
      · exact h.consume (hticket hpc rfl).symm hfits rfl (hnot hpc rfl) nofun
          (by rw [hpc]; rfl) rfl nofun
      · exact ⟨ledger, rfl, h⟩
    · split
      · exact h.waiting (hticket hpc rfl) rfl hfits nofun nofun nofun
      · exact h.waiting (hticket hpc rfl) rfl hfits nofun nofun nofun
  | signalling address all =>
    simp only [State.advance, hpc]
    exact h.signal rfl (fun _ _ => rfl) ((h.owing t).trans (by rw [hpc]; rfl)) rfl (hnone hpc rfl)
      (rfl : Pc.idle.ticket = none) trivial (hnot hpc rfl) rfl rfl address all
  | interrupting thread =>
    simp only [State.advance, hpc]
    exact h.interrupting hpc _
  | releasing address =>
    simp only [State.advance, hpc]
    exact h.releasing hpc
  | releasedCheck address =>
    simp only [State.advance, hpc]
    exact h.releasedCheck hpc
  | releasedSignal address =>
    simp only [State.advance, hpc]
    exact ⟨ledger, rfl, h.released hpc⟩

end

/-- What holds of the threads and the ledger that watches them. -/
def Watched (now : State × Option Ledger) : Prop :=
  ∃ ledger, now.2 = some ledger ∧ Sim ledger now.1

theorem watched_start : Watched (State.start, some Ledger.start) := by
  refine ⟨_, rfl, ⟨?_, ?_, ?_, ?_, ?_, ?_, ?_, ?_, ?_⟩, rfl, ?_, ?_, ?_⟩ <;>
    simp [State.start, Pc.ticket, Pc.Fits, Pc.owes, Pc.claimsZero, Ledger.start]

theorem Watched.step {before : State × Option Ledger} {input : Input} (h : Watched before)
    (hok : Permitted before input) : Watched (watch before input) := by
  obtain ⟨s, owner⟩ := before
  obtain ⟨ledger, rfl, hsim⟩ := h
  have hkept : Kept ledger (s.next input) := by
    cases input with
    | step t answer => exact hsim.advance answer _ hok
    | lock address => exact ⟨ledger, rfl, hsim.lock address⟩
    | call t call =>
      simp only [State.next]
      split
      · next hidle =>
        refine hsim.unticketed (by rw [hidle]; rfl) ?_ ?_ ?_ ?_ ?_
        · cases call <;> rfl
        · cases call <;> trivial
        · simp [hidle, Pc.Releases]
        · rw [hidle]
          cases call <;> rfl
        · cases call <;> exact nofun
      · exact ⟨ledger, rfl, hsim⟩
  obtain ⟨ledger', heq, hsim'⟩ := hkept
  refine ⟨ledger', ?_, hsim'⟩
  simp only [watch]
  rw [← heq]
  cases (s.next input).2 <;> rfl

/-- Nobody sleeps through what it waits for: a chosen waiter finds its event set, and a mutex on
which somebody sleeps is only free while the release that freed it has not told the sleepers. -/
def Awake (ledger : Ledger) (s : State) : Prop :=
  (∀ t ticket, s.pc t = .waitSleep ticket → ⟨t, ticket.key.address, true⟩ ∈ ledger.queue →
    s.event t = true) ∧
  ∀ t ticket, s.pc t = .timedSleep ticket → s.event t = false →
    s.locked ticket.key.address = false → ∃ u, (s.pc u).Releases ticket.key.address

theorem Sim.awake (h : Sim ledger s) : Awake ledger s := by
  refine ⟨fun t ticket hpc hchosen => ?_, h.awaited⟩
  obtain ⟨row, hrow, -, heq⟩ := (mem_queue h).mp hchosen
  obtain ⟨rfl, -, hselected⟩ := Entry.mk.inj heq
  exact h.ready row hrow hselected.symm (by rw [hpc]; rfl)

/-- **No wakeup is lost in a run in which no chosen waiter fails.**  The ledger accepts all of it:
each signal goes to the oldest waiter without one, a waiter that leaves with a signal returns with
it or hands it to the next one, and the others do not return 0 unless they are interrupted. -/
theorem condition_waits_answered (inputs : List Input)
    (hok : EveryStep watch Permitted (State.start, some Ledger.start) inputs) :
    EveryState watch (fun now => ∃ ledger, now.2 = some ledger ∧ Awake ledger now.1)
      (State.start, some Ledger.start) inputs := by
  have hwatched := EveryState.of_preserved
    (fun before input (h : Watched before) hpermitted => h.step hpermitted) watched_start hok
  refine hwatched.mono fun now h => ?_
  obtain ⟨ledger, heq, hsim⟩ := h
  exact ⟨ledger, heq, hsim.awake⟩

/-- Thread 1 waits on the condition at 10, and thread 2 signals. -/
theorem condition_waits_answered_once : EveryStep watch Permitted (State.start, some Ledger.start)
      [.lock 20, .call 1 (.condition 10 false), .step 1 0, .step 1 0, .step 1 0,
        .call 2 (.signal 10 false), .step 2 0, .step 1 0, .step 1 0, .step 1 0, .step 1 0,
        .step 1 0, .step 1 0, .step 1 0] ∧
    EveryState watch (fun now => ∃ ledger, now.2 = some ledger ∧ Awake ledger now.1)
      (State.start, some Ledger.start)
      [.lock 20, .call 1 (.condition 10 false), .step 1 0, .step 1 0, .step 1 0,
        .call 2 (.signal 10 false), .step 2 0, .step 1 0, .step 1 0, .step 1 0, .step 1 0,
        .step 1 0, .step 1 0, .step 1 0] := by
  have hok : EveryStep watch Permitted (State.start, some Ledger.start)
      [.lock 20, .call 1 (.condition 10 false), .step 1 0, .step 1 0, .step 1 0,
        .call 2 (.signal 10 false), .step 2 0, .step 1 0, .step 1 0, .step 1 0, .step 1 0,
        .step 1 0, .step 1 0, .step 1 0] :=
    ⟨trivial, trivial, trivial, trivial, trivial, trivial, trivial, trivial, trivial, trivial,
      .inl rfl, trivial, .inl rfl, trivial, trivial⟩
  exact ⟨hok, condition_waits_answered _ hok⟩

/-- Threads 1 and 2 wait on the condition at 10, and thread 3 signals.  The unlock of the mutex
that thread 1 passed fails, so that it returns 1 without the signal and thread 2 sleeps on. -/
theorem lost_signal :
    let inputs : List Input :=
      [.call 1 (.condition 10 false), .step 1 0, .step 1 0,
        .call 2 (.condition 10 false), .step 2 0, .step 2 0, .step 2 0, .step 2 0, .step 2 0,
        .step 2 0, .step 2 0, .call 3 (.signal 10 false), .step 3 0, .step 1 1, .step 1 0, .step 1 0]
    (watched inputs).2.isNone = true ∧ (watched inputs).1.pc 1 = .idle ∧
      (watched inputs).1.pc 2 = .waitSleep ⟨⟨10, true⟩, 2, false⟩ ∧
      (watched inputs).1.event 2 = false ∧ (watched inputs).1.pc 3 = .idle := by
  decide

end Kinakaze.Parking
