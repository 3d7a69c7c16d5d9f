import Mathlib.Data.List.Nodup
import Kinakaze.Parking.Calls

/-!
# Tickets

Rows and tickets belong together: a ticket is the row of the thread that holds
it, and finishing it takes that row out.  A thread that was chosen since it last
looked finds its event set, and a timed waiter sleeps on a free mutex only while
the release that freed it has not told the waiters yet.
-/

namespace Kinakaze.Parking

open Library

/-! ### Lines -/

/-- The ticket that is registered at a line. -/
def Pc.ticket : Pc → Option Ticket
  | .waitUnlock ticket | .waitDrop ticket _ | .waitCancel ticket | .waitSelected ticket
  | .waitInterrupt ticket | .waitArm ticket | .waitSleep ticket | .waitFinish ticket _
  | .timedArm ticket | .timedTry ticket | .timedSleep ticket | .timedFinish ticket => some ticket
  | _ => none

/-- Lines between the look at the own row and the next one. -/
def Pc.resting : Pc → Bool
  | .waitInterrupt _ | .waitArm _ | .waitSleep _ => true
  | _ => false

/-- The condition whose signal the thread has left its wait with. -/
def Pc.owes : Pc → Option Nat
  | .waitRelock address selected _ | .waitTest address selected _ _
  | .waitDeliver address selected _ | .waitRetest address selected _ =>
    if selected then some address else none
  | .waitReplace address => some address
  | _ => none

/-- The thread has left its wait, and is about to return 0 without a signal. -/
def Pc.claimsZero : Pc → Bool
  | .waitRelock _ false result | .waitTest _ false result _ | .waitDeliver _ false result
  | .waitRetest _ false result => result = 0
  | _ => false

/-- Tickets are of the kind their line is for, and failures are failures. -/
def Pc.Fits : Pc → Prop
  | .waitUnlock ticket | .waitCancel ticket | .waitSelected ticket | .waitInterrupt ticket
  | .waitArm ticket | .waitSleep ticket | .waitFinish ticket _ => ticket.key.condition = true
  | .waitDrop ticket code => ticket.key.condition = true ∧ code ≠ 0
  | .waitReturn selected code => selected = false ∧ code ≠ 0
  | .waitTest _ _ _ error => error = 0 ∨ error = eownerdead
  | .timedArm ticket | .timedTry ticket | .timedSleep ticket | .timedFinish ticket =>
    ticket.key.condition = false
  | _ => True

/-- A release of the mutex that has not told the waiters yet. -/
def Pc.Releases (address : Nat) (pc : Pc) : Prop :=
  pc = .releasedCheck address ∨ pc = .releasedSignal address

structure Inv (s : State) : Prop where
  threads : (s.rows.map Row.thread).Nodup
  distinct : (s.rows.map Row.token).Nodup
  tokens : ∀ row ∈ s.rows, row.token < s.tokens
  ticketed : ∀ t ticket, (s.pc t).ticket = some ticket →
    ∃ row ∈ s.rows, row.thread = t ∧ row.isOf ticket = true
  owned : ∀ row ∈ s.rows, ∃ ticket, (s.pc row.thread).ticket = some ticket ∧ row.isOf ticket = true
  fits : ∀ t, (s.pc t).Fits
  counted : s.timedWaiters = s.rows.countP fun row => !row.key.condition
  ready : ∀ row ∈ s.rows, row.selected = true → (s.pc row.thread).resting = true →
    s.event row.thread = true
  awaited : ∀ t ticket, s.pc t = .timedSleep ticket → s.event t = false →
    s.locked ticket.key.address = false → ∃ u, (s.pc u).Releases ticket.key.address

variable {s s' : State} {t u : Thread}

/-! ### Rows -/

variable {ticket : Ticket} {row : Row}

theorem Row.isOf_iff :
    row.isOf ticket = true ↔ row.key = ticket.key ∧ row.token = ticket.token := by
  simp [Row.isOf]

theorem Inv.isOf_iff (h : Inv s) (hticket : (s.pc t).ticket = some ticket) (hrow : row ∈ s.rows) :
    row.isOf ticket = true ↔ row.thread = t := by
  obtain ⟨own, hown, hthread, hisOf⟩ := h.ticketed t ticket hticket
  constructor
  · intro hrow'
    have htoken : row.token = own.token :=
      (Row.isOf_iff.mp hrow').2.trans (Row.isOf_iff.mp hisOf).2.symm
    rw [List.inj_on_of_nodup_map h.distinct hrow hown htoken, hthread]
  · intro hrow'
    rw [List.inj_on_of_nodup_map h.threads hrow hown (hrow'.trans hthread.symm)]
    exact hisOf

theorem Inv.selected_iff (h : Inv s) (hticket : (s.pc t).ticket = some ticket) :
    s.selected ticket = true ↔ ∃ row ∈ s.rows, row.thread = t ∧ row.selected = true := by
  obtain ⟨own, hown, hthread, hisOf⟩ := h.ticketed t ticket hticket
  unfold State.selected
  cases hfind : s.rows.find? (·.isOf ticket) with
  | none => exact absurd hisOf (List.find?_eq_none.mp hfind own hown)
  | some row =>
    have hmem := List.mem_of_find?_eq_some hfind
    have hrow := (h.isOf_iff hticket hmem).mp (List.find?_some hfind)
    constructor
    · exact fun hselected => ⟨row, hmem, hrow, by simpa using hselected⟩
    · rintro ⟨other, hother, hthread', hselected⟩
      rw [List.inj_on_of_nodup_map h.threads hmem hother (hrow.trans hthread'.symm)]
      simpa using hselected

theorem eraseP_eq_filter {α β : Type} [DecidableEq β] {f : α → β} {b : β} {p : α → Bool}
    {l : List α} (hnodup : (l.map f).Nodup) (hp : ∀ a ∈ l, p a = true ↔ f a = b) :
    l.eraseP p = l.filter (f · ≠ b) := by
  induction l with
  | nil => rfl
  | cons a l ih =>
    rw [List.map_cons, List.nodup_cons] at hnodup
    have htail := ih hnodup.2 fun c hc => hp c (List.mem_cons_of_mem _ hc)
    by_cases ha : p a = true
    · have hab := (hp a List.mem_cons_self).mp ha
      rw [List.eraseP_cons_of_pos ha, List.filter_cons_of_neg (by simpa using hab),
        List.filter_eq_self.mpr fun c hc => ?_]
      have hne : f c ≠ b := fun heq => hnodup.1 (List.mem_map.mpr ⟨c, hc, heq.trans hab.symm⟩)
      simpa using hne
    · have hab : f a ≠ b := fun heq => ha ((hp a List.mem_cons_self).mpr heq)
      rw [List.eraseP_cons_of_neg ha, List.filter_cons_of_pos (by simpa using hab), htail]

theorem Inv.finish_rows (h : Inv s) (hticket : (s.pc t).ticket = some ticket) :
    (s.finish ticket).rows = s.rows.filter (·.thread ≠ t) :=
  eraseP_eq_filter h.threads fun _ hrow => h.isOf_iff hticket hrow

/-- The rows that a signal may take. -/
def Row.open (key : Key) (row : Row) : Bool :=
  row.key = key && !(key.condition && row.selected)

theorem signalRows_spec (key : Key) {rows : List Row} (hnodup : (rows.map Row.thread).Nodup)
    (count : Nat) :
    (signalRows key count rows).2 = ((rows.filter (·.open key)).map Row.thread).take count ∧
      (signalRows key count rows).1 = rows.map fun row =>
        if row.open key ∧ row.thread ∈ (signalRows key count rows).2 then
          { row with selected := true } else row := by
  induction rows generalizing count with
  | nil => cases count <;> simp [signalRows]
  | cons row rows ih =>
    rw [List.map_cons, List.nodup_cons] at hnodup
    cases count with
    | zero => simp [signalRows]
    | succ count =>
      by_cases hopen : row.open key = true
      · have hclosed : ¬(row.key ≠ key ∨ (key.condition = true ∧ row.selected = true)) := by
          simpa [Row.open, Classical.or_iff_not_imp_left] using hopen
        obtain ⟨hwoken, hrows⟩ := ih hnodup.2 count
        simp only [signalRows, if_neg hclosed, List.filter_cons_of_pos hopen, List.map_cons,
          List.take_succ_cons, hwoken, hopen, List.mem_cons, true_or, and_self, if_true,
          true_and, List.cons.injEq]
        rw [hrows, hwoken]
        refine List.map_congr_left fun other hother => ?_
        have hne : other.thread ≠ row.thread := fun heq =>
          hnodup.1 (heq ▸ List.mem_map_of_mem hother)
        simp [hne]
      · have hclosed : row.key ≠ key ∨ (key.condition = true ∧ row.selected = true) := by
          by_contra hnot
          exact hopen (by simpa [Row.open, Classical.or_iff_not_imp_left] using hnot)
        obtain ⟨hwoken, hrows⟩ := ih hnodup.2 (count + 1)
        simp only [signalRows, if_pos hclosed, List.filter_cons_of_neg hopen, List.map_cons,
          hwoken, hopen, true_and, List.cons.injEq]
        rw [hrows, hwoken]
        exact ⟨(if_neg (by simp)).symm, rfl⟩

/-! ### Steps that leave the rows alone -/

theorem goto_pc (s : State) (t : Thread) (pc : Pc) : (s.goto t pc).pc t = pc :=
  Function.update_self ..

theorem goto_pc_of_ne (s : State) (pc : Pc) (hu : u ≠ t) : (s.goto t pc).pc u = s.pc u :=
  Function.update_of_ne hu _ _

/-- Timed waiters stay awaited where no mutex is freed and no release ends. -/
theorem Inv.awaited_of (h : Inv s) (hpc : ∀ u, u ≠ t → s'.pc u = s.pc u)
    (hevent : ∀ u, u ≠ t → s.event u = true → s'.event u = true)
    (hlocked : ∀ address, s'.locked address = false → s.locked address = false)
    (hnot : ∀ address, ¬(s.pc t).Releases address)
    (hsleep : ∀ ticket, s'.pc t = .timedSleep ticket → s'.locked ticket.key.address = true)
    (u : Thread) (ticket : Ticket) (hu : s'.pc u = .timedSleep ticket)
    (hunset : s'.event u = false) (hfree : s'.locked ticket.key.address = false) :
    ∃ v, (s'.pc v).Releases ticket.key.address := by
  by_cases hut : u = t
  · subst hut
    rw [hsleep ticket hu] at hfree
    cases hfree
  rw [hpc u hut] at hu
  have hunset' : s.event u = false := by
    by_contra hset
    rw [hevent u hut (by simpa using hset)] at hunset
    cases hunset
  obtain ⟨v, hv⟩ := h.awaited u ticket hu hunset' (hlocked _ hfree)
  have hvt : v ≠ t := fun heq => hnot _ (heq ▸ hv)
  exact ⟨v, by rw [hpc v hvt]; exact hv⟩

theorem Inv.move (h : Inv s) (hrows : s'.rows = s.rows) (htokens : s'.tokens = s.tokens)
    (hwaiters : s'.timedWaiters = s.timedWaiters) (hpc : ∀ u, u ≠ t → s'.pc u = s.pc u)
    (hticket : (s'.pc t).ticket = (s.pc t).ticket) (hfits : (s'.pc t).Fits)
    (hevent : ∀ u, u ≠ t → s.event u = true → s'.event u = true)
    (hready : ∀ row ∈ s.rows, row.thread = t → row.selected = true →
      (s'.pc t).resting = true → s'.event t = true)
    (hawaited : ∀ u ticket, s'.pc u = .timedSleep ticket → s'.event u = false →
      s'.locked ticket.key.address = false → ∃ v, (s'.pc v).Releases ticket.key.address) :
    Inv s' := by
  have htickets : ∀ u, (s'.pc u).ticket = (s.pc u).ticket := fun u => by
    by_cases hut : u = t
    · rw [hut, hticket]
    · rw [hpc u hut]
  refine ⟨hrows ▸ h.threads, hrows ▸ h.distinct, ?_, fun u ticket hu => ?_, fun row hrow => ?_,
    fun u => ?_, ?_, fun row hrow hselected hresting => ?_, hawaited⟩
  · rw [hrows, htokens]
    exact h.tokens
  · rw [htickets] at hu
    rw [hrows]
    exact h.ticketed u ticket hu
  · rw [hrows] at hrow
    rw [htickets]
    exact h.owned row hrow
  · by_cases hut : u = t
    · rw [hut]
      exact hfits
    · rw [hpc u hut]
      exact h.fits u
  · rw [hwaiters, hrows]
    exact h.counted
  · rw [hrows] at hrow
    by_cases hut : row.thread = t
    · rw [hut] at hresting ⊢
      exact hready row hrow hut hselected hresting
    · rw [hpc _ hut] at hresting
      exact hevent _ hut (h.ready row hrow hselected hresting)

/-! ### Registering and finishing -/

theorem Inv.rowless (h : Inv s) (hnone : (s.pc t).ticket = none) :
    ∀ row ∈ s.rows, row.thread ≠ t := by
  intro row hrow heq
  obtain ⟨ticket, hticket, -⟩ := h.owned row hrow
  rw [heq, hnone] at hticket
  cases hticket

theorem nodup_map_concat {α β : Type} {f : α → β} {l : List α} {a : α} (h : (l.map f).Nodup)
    (hnew : ∀ b ∈ l, f b ≠ f a) : ((l ++ [a]).map f).Nodup := by
  rw [List.map_append, List.map_singleton, ← List.concat_eq_append]
  refine List.Nodup.concat (fun hmem => ?_) h
  obtain ⟨b, hb, heq⟩ := List.mem_map.mp hmem
  exact hnew b hb heq

theorem Inv.register (h : Inv s) (hnone : (s.pc t).ticket = none) {key : Key} {timed : Bool}
    {pc : Pc} (hticket : pc.ticket = some ⟨key, s.tokens, timed⟩) (hfits : pc.Fits)
    (hsleep : ∀ ticket, pc ≠ .timedSleep ticket) (hnot : ∀ address, ¬(s.pc t).Releases address) :
    Inv ((s.register t key).goto t pc) := by
  have hrowless := h.rowless hnone
  have hself := goto_pc (s.register t key) t pc
  have hpc : ∀ u, u ≠ t → ((s.register t key).goto t pc).pc u = s.pc u :=
    fun u hu => goto_pc_of_ne _ pc hu
  have hevent : ∀ u, u ≠ t → ((s.register t key).goto t pc).event u = s.event u :=
    fun u hu => Function.update_of_ne hu _ _
  refine ⟨nodup_map_concat h.threads fun row hrow => hrowless row hrow,
    nodup_map_concat h.distinct fun row hrow => Nat.ne_of_lt (h.tokens row hrow),
    fun row hrow => ?_, fun u ticket hu => ?_, fun row hrow => ?_, fun u => ?_, ?_,
    fun row hrow hselected hresting => ?_,
    h.awaited_of hpc (fun u hu hset => (hevent u hu).trans hset) (fun _ => id) hnot
      fun ticket hp => absurd (hself.symm.trans hp) (hsleep ticket)⟩
  · rcases List.mem_append.mp hrow with hrow | hrow
    · exact Nat.lt_succ_of_lt (h.tokens row hrow)
    · rw [List.mem_singleton.mp hrow]
      exact Nat.lt_succ_self _
  · by_cases hut : u = t
    · rw [hut, hself, hticket] at hu
      cases hu
      exact ⟨⟨s.tokens, t, key, false⟩, List.mem_append_right _ List.mem_cons_self, hut.symm,
        Row.isOf_iff.mpr ⟨rfl, rfl⟩⟩
    · rw [hpc u hut] at hu
      obtain ⟨row, hrow, hthread, hisOf⟩ := h.ticketed u ticket hu
      exact ⟨row, List.mem_append_left _ hrow, hthread, hisOf⟩
  · rcases List.mem_append.mp hrow with hrow | hrow
    · rw [hpc _ (hrowless row hrow)]
      exact h.owned row hrow
    · rw [List.mem_singleton.mp hrow, hself]
      exact ⟨_, hticket, Row.isOf_iff.mpr ⟨rfl, rfl⟩⟩
  · by_cases hut : u = t
    · rw [hut, hself]
      exact hfits
    · rw [hpc u hut]
      exact h.fits u
  · have hcounted := h.counted
    simp only [State.goto, State.register, List.countP_append, List.countP_singleton]
    cases key.condition <;> simp [hcounted]
  · rcases List.mem_append.mp hrow with hrow | hrow
    · rw [hpc _ (hrowless row hrow)] at hresting
      rw [hevent _ (hrowless row hrow)]
      exact h.ready row hrow hselected hresting
    · rw [List.mem_singleton.mp hrow] at hselected
      cases hselected

theorem countP_without {rows : List Row} (hnodup : (rows.map Row.thread).Nodup) {own : Row}
    (hown : own ∈ rows) (p : Row → Bool) :
    rows.countP p = (rows.filter (·.thread ≠ own.thread)).countP p + if p own then 1 else 0 := by
  induction rows with
  | nil => cases hown
  | cons row rows ih =>
    rw [List.map_cons, List.nodup_cons] at hnodup
    by_cases hsame : row.thread = own.thread
    · have hall : rows.filter (·.thread ≠ own.thread) = rows := by
        refine List.filter_eq_self.mpr fun other hother => ?_
        have hne : other.thread ≠ own.thread := fun heq =>
          hnodup.1 (List.mem_map.mpr ⟨other, hother, heq.trans hsame.symm⟩)
        simpa using hne
      have heq : own = row := by
        rcases List.mem_cons.mp hown with heq | hmem
        · exact heq
        · exact absurd (List.mem_map.mpr ⟨own, hmem, hsame.symm⟩) hnodup.1
      rw [List.filter_cons_of_neg (by simpa using hsame), hall, List.countP_cons, heq]
    · have hmem : own ∈ rows := (List.mem_cons.mp hown).resolve_left fun heq =>
        hsame (heq ▸ rfl)
      rw [List.filter_cons_of_pos (by simpa using hsame), List.countP_cons, List.countP_cons,
        ih hnodup.2 hmem]
      omega

theorem Inv.finish (h : Inv s) (hticket : (s.pc t).ticket = some ticket)
    {pc : Pc} (hnone : pc.ticket = none) (hfits : pc.Fits)
    (hnot : ∀ address, ¬(s.pc t).Releases address) : Inv ((s.finish ticket).goto t pc) := by
  have hrows : ((s.finish ticket).goto t pc).rows = s.rows.filter (·.thread ≠ t) :=
    h.finish_rows hticket
  have hself := goto_pc (s.finish ticket) t pc
  have hpc : ∀ u, u ≠ t → ((s.finish ticket).goto t pc).pc u = s.pc u :=
    fun u hu => goto_pc_of_ne _ pc hu
  have hmem : ∀ row, row ∈ ((s.finish ticket).goto t pc).rows ↔ row ∈ s.rows ∧ row.thread ≠ t := by
    intro row
    rw [hrows, List.mem_filter]
    simp
  have hsleep : ∀ other, pc ≠ .timedSleep other := fun other heq => by
    rw [heq] at hnone
    cases hnone
  refine ⟨?_, ?_, fun row hrow => h.tokens row ((hmem row).mp hrow).1, fun u other hu => ?_,
    fun row hrow => ?_, fun u => ?_, ?_, fun row hrow hselected hresting => ?_,
    h.awaited_of hpc (fun _ _ => id) (fun _ => id) hnot
      fun other hp => absurd (hself.symm.trans hp) (hsleep other)⟩
  · rw [hrows]
    exact h.threads.sublist (List.filter_sublist.map _)
  · rw [hrows]
    exact h.distinct.sublist (List.filter_sublist.map _)
  · by_cases hut : u = t
    · rw [hut, hself, hnone] at hu
      cases hu
    · rw [hpc u hut] at hu
      obtain ⟨row, hrow, hthread, hisOf⟩ := h.ticketed u other hu
      exact ⟨row, (hmem row).mpr ⟨hrow, hthread ▸ hut⟩, hthread, hisOf⟩
  · obtain ⟨hrow, hne⟩ := (hmem row).mp hrow
    rw [hpc _ hne]
    exact h.owned row hrow
  · by_cases hut : u = t
    · rw [hut, hself]
      exact hfits
    · rw [hpc u hut]
      exact h.fits u
  · obtain ⟨own, hown, hthread, hisOf⟩ := h.ticketed t ticket hticket
    have hcount := countP_without h.threads hown fun row => !row.key.condition
    have hkey := (Row.isOf_iff.mp hisOf).1
    rw [hrows, ← hthread]
    simp only [State.goto, State.finish]
    rw [h.counted, hcount, hkey]
    cases ticket.key.condition <;> simp
  · obtain ⟨hrow, hne⟩ := (hmem row).mp hrow
    rw [hpc _ hne] at hresting
    exact h.ready row hrow hselected hresting

/-! ### Signals -/

/-- What a signal that wakes `woken` leaves of a row. -/
def Row.signalled (key : Key) (woken : List Thread) (row : Row) : Row :=
  if row.open key ∧ row.thread ∈ woken then { row with selected := true } else row

section

variable (key : Key) (woken : List Thread) (row : Row)

@[simp] theorem Row.signalled_thread : (row.signalled key woken).thread = row.thread := by
  unfold Row.signalled
  split <;> rfl

@[simp] theorem Row.signalled_token : (row.signalled key woken).token = row.token := by
  unfold Row.signalled
  split <;> rfl

@[simp] theorem Row.signalled_key : (row.signalled key woken).key = row.key := by
  unfold Row.signalled
  split <;> rfl

@[simp] theorem Row.signalled_isOf (ticket : Ticket) :
    (row.signalled key woken).isOf ticket = row.isOf ticket := by
  simp [Row.isOf]

theorem Row.signalled_selected_of (h : row.selected = true) :
    (row.signalled key woken).selected = true := by
  unfold Row.signalled
  split
  · rfl
  · exact h

theorem Row.selected_of_signalled (h : (row.signalled key woken).selected = true) :
    row.selected = true ∨ row.thread ∈ woken := by
  unfold Row.signalled at h
  split at h
  · next hboth => exact .inr hboth.2
  · exact .inl h

end

variable {key : Key} {all : Bool}

theorem Inv.signal_woken (h : Inv s) (key : Key) (all : Bool) :
    (s.signal key all).2 = if all then (s.rows.filter (·.open key)).map Row.thread
      else ((s.rows.filter (·.open key)).map Row.thread).take 1 := by
  unfold State.signal
  rw [(signalRows_spec key h.threads _).1]
  cases all with
  | false => rfl
  | true =>
    refine List.take_of_length_le ?_
    rw [List.length_map]
    exact List.length_filter_le _ _

theorem Inv.signal_rows (h : Inv s) (key : Key) (all : Bool) :
    (s.signal key all).1.rows = s.rows.map (Row.signalled key (s.signal key all).2) :=
  (signalRows_spec key h.threads _).2

theorem signal_event (s : State) (key : Key) (all : Bool) (u : Thread) :
    (s.signal key all).1.event u = (decide (u ∈ (s.signal key all).2) || s.event u) :=
  rfl

theorem Inv.signal (h : Inv s) {pc : Pc} (hwas : (s.pc t).ticket = none)
    (hnone : pc.ticket = none) (hfits : pc.Fits)
    (hawaited : ∀ u ticket, u ≠ t → s.pc u = .timedSleep ticket →
      (s.signal key all).1.event u = false → s.locked ticket.key.address = false →
      ∃ v, v ≠ t ∧ (s.pc v).Releases ticket.key.address) :
    Inv ((s.signal key all).1.goto t pc) := by
  have hself := goto_pc (s.signal key all).1 t pc
  have hpc : ∀ u, u ≠ t → ((s.signal key all).1.goto t pc).pc u = s.pc u :=
    fun u hu => goto_pc_of_ne _ pc hu
  have hrows : ((s.signal key all).1.goto t pc).rows =
      s.rows.map (Row.signalled key (s.signal key all).2) := h.signal_rows key all
  have hrowless := h.rowless hwas
  refine ⟨?_, ?_, fun row hrow => ?_, fun u ticket hu => ?_, fun row hrow => ?_, fun u => ?_, ?_,
    fun row hrow hselected hresting => ?_, fun u ticket hu hunset hfree => ?_⟩
  · rw [hrows, List.map_map]
    simpa [Function.comp_def] using h.threads
  · rw [hrows, List.map_map]
    simpa [Function.comp_def] using h.distinct
  · rw [hrows] at hrow
    obtain ⟨old, hold, rfl⟩ := List.mem_map.mp hrow
    rw [Row.signalled_token]
    exact h.tokens old hold
  · have hut : u ≠ t := fun heq => by
      rw [heq, hself, hnone] at hu
      cases hu
    rw [hpc u hut] at hu
    obtain ⟨row, hrow, hthread, hisOf⟩ := h.ticketed u ticket hu
    rw [hrows]
    exact ⟨_, List.mem_map_of_mem hrow, by rw [Row.signalled_thread, hthread],
      by rw [Row.signalled_isOf, hisOf]⟩
  · rw [hrows] at hrow
    obtain ⟨old, hold, rfl⟩ := List.mem_map.mp hrow
    rw [Row.signalled_thread, hpc _ (hrowless old hold)]
    obtain ⟨ticket, hticket, hisOf⟩ := h.owned old hold
    exact ⟨ticket, hticket, by rw [Row.signalled_isOf, hisOf]⟩
  · by_cases hut : u = t
    · rw [hut, hself]
      exact hfits
    · rw [hpc u hut]
      exact h.fits u
  · rw [hrows, List.countP_map]
    simp only [Function.comp_def, Row.signalled_key]
    exact h.counted
  · rw [hrows] at hrow
    obtain ⟨old, hold, rfl⟩ := List.mem_map.mp hrow
    rw [Row.signalled_thread] at hresting ⊢
    rw [hpc _ (hrowless old hold)] at hresting
    refine (signal_event s key all old.thread).trans ?_
    rcases Row.selected_of_signalled key _ old hselected with hold' | hwoken
    · rw [h.ready old hold hold' hresting, Bool.or_true]
    · rw [decide_eq_true hwoken, Bool.true_or]
  · have hut : u ≠ t := fun heq => by
      rw [heq, hself] at hu
      rw [hu] at hnone
      cases hnone
    rw [hpc u hut] at hu
    obtain ⟨v, hvt, hv⟩ := hawaited u ticket hut hu hunset hfree
    exact ⟨v, by rw [hpc v hvt]; exact hv⟩

end Kinakaze.Parking
