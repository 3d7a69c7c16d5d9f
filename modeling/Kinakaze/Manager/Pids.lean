import Kinakaze.Manager.Runs

/-!
# Process numbers over a run

A number is known while a process or the record of a fork bears it.  The
counter only grows, each move of it makes one new number known, and no other
effect does; so a number that has gone out of use stays out of use.
-/

namespace Kinakaze.Manager

open Kinakaze.Library Kinakaze.Protocol

variable {m m' m'' : StateManager} {e : Event} {pid : Nat}

/-- The process each fork transaction creates. -/
def StateManager.childOf (m : StateManager) : Nat → Option Nat :=
  column m.transactions fun t => t.ticket.child.pid

/-- A live process has the number, or a fork transaction has reserved it. -/
def StateManager.Known (m : StateManager) (pid : Nat) : Prop :=
  m.peerOf pid ≠ none ∨ ∃ id : Nat, m.childOf id = some pid

/-- The call makes the number known. -/
def Issued (m : StateManager) (e : Event) (pid : Nat) : Prop :=
  ¬ m.Known pid ∧ (step m e).Known pid

/-- No number is handed out. -/
structure Quiet (m m' : StateManager) : Prop where
  counter : m'.nextPid = m.nextPid
  known : ∀ pid : Nat, m'.Known pid → m.Known pid

/-- The next number is handed out, and no other. -/
structure Issues (m m' : StateManager) : Prop where
  counter : m'.nextPid = m.nextPid + 1
  next : m'.Known m.nextPid
  known : ∀ pid : Nat, m'.Known pid → m.Known pid ∨ pid = m.nextPid

theorem Quiet.refl (m : StateManager) : Quiet m m := ⟨rfl, fun _ h => h⟩

theorem Quiet.trans (h : Quiet m m') (h' : Quiet m' m'') : Quiet m m'' :=
  ⟨h'.counter.trans h.counter, fun pid hpid => h.known pid (h'.known pid hpid)⟩

theorem Quiet.of_columns (hcounter : m'.nextPid = m.nextPid)
    (hpeers : ∀ q : Nat, m'.peerOf q ≠ none → m.Known q)
    (hchildren : ∀ j q : Nat, m'.childOf j = some q → m.childOf j = some q) : Quiet m m' where
  counter := hcounter
  known pid hpid := by
    rcases hpid with hpeer | ⟨j, hj⟩
    · exact hpeers pid hpeer
    · exact .inr ⟨j, hchildren j pid hj⟩

theorem Quiet.of_eq (hcounter : m'.nextPid = m.nextPid) (hpeers : m'.peerOf = m.peerOf)
    (hchildren : m'.childOf = m.childOf) : Quiet m m' :=
  .of_columns hcounter (fun q hq => .inl (by rw [← hpeers]; exact hq))
    fun j q hq => by rw [← hchildren]; exact hq

theorem Numbering.known_lt (h : Numbering m) (hpid : m.Known pid) : 1 ≤ pid ∧ pid < m.nextPid := by
  rcases hpid with hpeer | ⟨id, hid⟩
  · obtain ⟨x, hx⟩ := Option.ne_none_iff_exists'.mp hpeer
    obtain ⟨p, hp, -⟩ := column_eq_some.mp hx
    exact ⟨(h.process pid p hp).1, (h.process pid p hp).2.1⟩
  · obtain ⟨t, ht, rfl⟩ := column_eq_some.mp hid
    exact (h.fork id t ht).2.2

theorem pids_change (hchange : Change e m m') : Quiet m m' ∨ e.Asks ∧ Issues m m' := by
  cases hchange with
  | shutdown | connectControl | connectExec | setValue | collect | execReady | commitExec
  | dropClient | noteExit | forgetRetired => exact .inl ⟨rfl, fun _ h => h⟩
  | @connectRoot hasks peer =>
    have hpeers : ∀ q : Nat, (m.spawn peer).peerOf q =
        if m.nextPid = q then some peer else m.peerOf q :=
      fun _ => column_insert _ _ _ _ _
    refine .inr ⟨hasks, rfl, .inl ?_, fun pid hpid => ?_⟩
    · rw [hpeers, if_pos rfl]
      exact nofun
    rcases hpid with hpeer | hchild
    · rw [hpeers] at hpeer
      split at hpeer
      · next heq => exact .inr heq.symm
      · exact .inl (.inl hpeer)
    · exact .inl (.inr hchild)
  | @connectFork _ peer id t snapshot hunknown htarget hfresh hroom ht =>
    have hchildren : column (m.transactions.modify id fun t =>
        { t with snapshot := none, state := .adopted }) (fun t => t.ticket.child.pid) =
        m.childOf := column_modify_eq _ _ fun _ => rfl
    refine .inl (.of_columns rfl (fun q hq => ?_) fun j q hj => by rw [← hchildren]; exact hj)
    have hpeers : ((m.attachFork id t.ticket.child peer snapshot).addClient peer
        (.worker t.ticket.child.pid)).peerOf q =
        if t.ticket.child.pid = q then some peer else m.peerOf q := column_insert _ _ _ _ _
    rw [hpeers] at hq
    split at hq
    · next heq => exact .inr ⟨id, by rw [StateManager.childOf, column_of_get _ ht, heq]⟩
    · exact .inl hq
  | park => exact .inl (.of_eq rfl (peerOf_setPrewarm m _ _) rfl)
  | bindLaunch => exact .inl (.of_eq rfl (peerOf_bindLaunch m _ _ _ _) rfl)
  | addModule => exact .inl (.of_eq rfl (peerOf_addModule m _ _ _) rfl)
  | addState => exact .inl (.of_eq rfl (peerOf_addState m _ _ _) rfl)
  | @reserveFork hasks client pid requestKey parentPid next p token objects states =>
    have hchildren : ∀ j : Nat, (m.reserveFork pid requestKey parentPid token objects next
        { p.snapshot with states := states }).childOf j =
        if m.nextTransaction = j then some m.nextPid else m.childOf j :=
      fun _ => column_insert _ _ _ _ _
    have hpeers := peerOf_reserveFork m pid requestKey parentPid token objects next
      { p.snapshot with states := states }
    refine .inr ⟨hasks, rfl, .inr ⟨m.nextTransaction, ?_⟩, fun q hq => ?_⟩
    · rw [hchildren, if_pos rfl]
    rcases hq with hpeer | ⟨j, hj⟩
    · rw [hpeers] at hpeer
      exact .inl (.inl hpeer)
    rw [hchildren] at hj
    split at hj
    · exact .inr (Option.some.inj hj).symm
    · exact .inl (.inr ⟨j, hj⟩)
  | forkReady => exact .inl (.of_eq rfl rfl (column_modify_eq _ _ fun _ => rfl))
  | commitFork =>
    exact .inl (.of_eq rfl (peerOf_activateChild m _ _) (column_modify_eq _ _ fun _ => rfl))
  | @abortFork id t hevent ht hpending =>
    refine .inl (.of_eq ?_ (peerOf_abortTransaction m id) ?_)
    · rw [abortTransaction_of_pending ht hpending]
    · rw [abortTransaction_of_pending ht hpending]
      exact column_modify_eq _ _ fun _ => rfl
  | addExec => exact .inl (.of_eq rfl (peerOf_addExec m _ _ _) rfl)
  | abortExec ht hpending =>
    rw [abortExecTransaction_of_pending ht hpending]
    exact .inl ⟨rfl, fun _ h => h⟩
  | @forgetFork _ client pid id =>
    refine .inl (.of_columns rfl (fun q hq => ?_) fun j q hj => ?_)
    · rw [peerOf_forgetTransaction] at hq
      exact .inl hq
    rw [StateManager.childOf, StateManager.forgetTransaction, column_erase] at hj
    split at hj
    · cases hj
    · exact hj
  | forgetExec => exact .inl (.of_eq rfl (peerOf_forgetExec m _ _) rfl)
  | release => exact .inl (.of_eq rfl (peerOf_releaseReservations m _) rfl)
  | @promote id t =>
    refine .inl (.of_columns rfl (fun q hq => ?_) fun j q hj => ?_)
    · rw [peerOf_promote] at hq
      split at hq
      · exact .inl fun hnone => hq (by rw [hnone]; rfl)
      · exact .inl hq
    · obtain ⟨u, hu, rfl⟩ := column_eq_some.mp hj
      exact column_of_get _ (get_filter_eq_some.mp hu).1
  | @endProcess pid p status order records =>
    refine .inl (.of_columns rfl (fun q hq => ?_) fun j q hj => ?_)
    · rw [peerOf_endProcess] at hq
      split at hq
      · exact absurd rfl hq
      · exact .inl hq
    · obtain ⟨u, hu, rfl⟩ := column_eq_some.mp hj
      obtain ⟨t, ht, -, rfl⟩ := (transactions_endProcess m).mp hu
      rw [StateManager.childOf, column_of_get _ ht, pid_reparent]

theorem quiet_of_transition (h : Coherent m) (hquiet : ¬ e.Asks)
    (htransition : Transition m e m') : Quiet m m' := by
  have hsteps : ∀ {e : Event} {m₁ m₂ : StateManager}, ¬ e.Asks → Coherent m₁ →
      Steps e m₁ m₂ → Quiet m₁ m₂ := by
    intro e m₁ m₂ hquiet hm₁ hsteps
    have hpair : Coherent m₂ ∧ Quiet m₁ m₂ :=
      hsteps.preserves (P := fun m => Coherent m ∧ Quiet m₁ m)
        (fun m m' hm hchange => ⟨hm.1.change hchange, hm.2.trans
          ((pids_change hchange).resolve_right fun hissue => hquiet hissue.1)⟩)
        ⟨hm₁, .refl m₁⟩
    exact hpair.2
  cases htransition with
  | effects heffects => exact hsteps hquiet h heffects
  | completed ht hretiring hexit hfirst hrest =>
    exact (hsteps (not_asks_processExited _ _) h hfirst).trans
      (hsteps (not_asks_processExited _ _) (h.steps hfirst) hrest)

theorem pids_step (h : Sound m) (e : Event) : Quiet m (step m e) ∨ Issues m (step m e) := by
  by_cases hasks : e.Asks
  · rcases effect_of_step h.coherent h.collected hasks with hsame | hchange | ⟨m₁, hchange, hsame⟩
    · rw [hsame]
      exact .inl (.refl m)
    · exact (pids_change hchange).imp_right And.right
    · rw [hsame]
      rcases pids_change hchange with hquiet | ⟨-, hissue⟩
      · exact .inl ⟨hquiet.counter, hquiet.known⟩
      · exact .inr { hissue with }
  · exact .inl (quiet_of_transition h.coherent hasks (h.transition e))

theorem issued_iff (h : Sound m) :
    Issued m e pid ↔ pid = m.nextPid ∧ (step m e).nextPid = m.nextPid + 1 := by
  have hunknown : ¬ m.Known m.nextPid :=
    fun hknown => Nat.lt_irrefl _ (h.coherent.numbering.known_lt hknown).2
  constructor
  · rintro ⟨hnew, hknown⟩
    rcases pids_step h e with hquiet | hissue
    · exact absurd (hquiet.known pid hknown) hnew
    · exact ⟨(hissue.known pid hknown).resolve_left hnew, hissue.counter⟩
  · rintro ⟨rfl, hcounter⟩
    rcases pids_step h e with hquiet | hissue
    · rw [hquiet.counter] at hcounter
      omega
    · exact ⟨hunknown, hissue.next⟩

theorem nextPid_run (h : Sound m) (inputs : List Event) :
    m.nextPid ≤ (run step m inputs).nextPid := by
  induction inputs generalizing m with
  | nil => exact Nat.le_refl _
  | cons e inputs ih =>
    refine Nat.le_trans ?_ (ih (h.step e))
    rcases pids_step h e with hquiet | hissue
    · rw [hquiet.counter]
    · rw [hissue.counter]
      exact Nat.le_succ _

theorem not_issued_twice (h : Sound m) (hissued : Issued m e pid)
    (inputs : List Event) (e' : Event) : ¬ Issued (run step (step m e) inputs) e' pid := by
  intro hagain
  obtain ⟨rfl, hcounter⟩ := (issued_iff h).mp hissued
  obtain ⟨hpid, -⟩ := (issued_iff ((h.step e).run inputs)).mp hagain
  have hle := nextPid_run (h.step e) inputs
  omega

/-! ## Numbers out of use -/

/-- The number has been used, and no process will bear it again. -/
structure StateManager.Gone (m : StateManager) (pid : Nat) : Prop where
  used : pid < m.nextPid
  unowned : m.peerOf pid = none
  unreserved : ForAll m.transactions fun _ t => t.state = .prepared → t.ticket.child.pid ≠ pid

theorem StateManager.Gone.change (h : m.Gone pid) (hchange : Change e m m') : m'.Gone pid := by
  obtain ⟨hused, hunowned, hunreserved⟩ := h
  cases hchange with
  | shutdown | connectControl | connectExec | setValue | collect | execReady | commitExec
  | dropClient | noteExit | forgetRetired => exact ⟨hused, hunowned, hunreserved⟩
  | @connectRoot hasks peer =>
    refine ⟨Nat.lt_succ_of_lt hused, ?_, hunreserved⟩
    refine (column_insert _ _ _ _ _).trans ?_
    rw [if_neg (Nat.ne_of_gt hused)]
    exact hunowned
  | @connectFork _ peer id t snapshot hunknown htarget hfresh hroom ht hprepared =>
    refine ⟨hused, ?_, hunreserved.modify fun u _ _ => nofun⟩
    refine (column_insert _ _ _ _ _).trans ?_
    rw [if_neg (hunreserved id t ht hprepared)]
    exact hunowned
  | park => exact ⟨hused, by rw [peerOf_setPrewarm]; exact hunowned, hunreserved⟩
  | bindLaunch => exact ⟨hused, by rw [peerOf_bindLaunch]; exact hunowned, hunreserved⟩
  | addModule => exact ⟨hused, by rw [peerOf_addModule]; exact hunowned, hunreserved⟩
  | addState => exact ⟨hused, by rw [peerOf_addState]; exact hunowned, hunreserved⟩
  | reserveFork =>
    exact ⟨Nat.lt_succ_of_lt hused, by rw [peerOf_reserveFork]; exact hunowned,
      hunreserved.insert fun _ => Nat.ne_of_gt hused⟩
  | forkReady => exact ⟨hused, hunowned, hunreserved.modify fun u _ _ => nofun⟩
  | commitFork =>
    exact ⟨hused, by rw [peerOf_activateChild]; exact hunowned,
      hunreserved.modify fun u _ _ => nofun⟩
  | @abortFork id t hevent ht hpending =>
    refine ⟨?_, by rw [peerOf_abortTransaction]; exact hunowned, ?_⟩
    · rw [abortTransaction_of_pending ht hpending]
      exact hused
    · rw [abortTransaction_of_pending ht hpending]
      exact hunreserved.modify fun u _ _ => nofun
  | addExec => exact ⟨hused, by rw [peerOf_addExec]; exact hunowned, hunreserved⟩
  | abortExec ht hpending =>
    rw [abortExecTransaction_of_pending ht hpending]
    exact ⟨hused, hunowned, hunreserved⟩
  | forgetFork =>
    exact ⟨hused, by rw [peerOf_forgetTransaction]; exact hunowned, hunreserved.erase _⟩
  | forgetExec => exact ⟨hused, by rw [peerOf_forgetExec]; exact hunowned, hunreserved⟩
  | release =>
    exact ⟨hused, by rw [peerOf_releaseReservations]; exact hunowned, hunreserved⟩
  | promote =>
    refine ⟨hused, ?_, hunreserved.filter _⟩
    rw [peerOf_promote, hunowned, Option.map_none, ite_self]
  | endProcess =>
    refine ⟨hused, ?_, fun j u hu hprepared => ?_⟩
    · rw [peerOf_endProcess, hunowned, ite_self]
    · obtain ⟨t, ht, -, rfl⟩ := (transactions_endProcess m).mp hu
      rw [pid_reparent]
      exact hunreserved j t ht hprepared

theorem StateManager.Gone.step (h : m.Gone pid) (hsound : Sound m) (e : Event) :
    (Manager.step m e).Gone pid :=
  (hsound.transition e).preserves (P := (StateManager.Gone · pid))
    (fun _ _ _ hm hchange => hm.change hchange) h

theorem gone_endProcess (h : Coherent m) {p : Process} (hp : m.processes[pid]? = some p)
    (order : List Nat) (records : Table Int) : (m.endProcess pid order records).Gone pid where
  used := (h.numbering.process pid p hp).2.1
  unowned := by rw [peerOf_endProcess, if_pos rfl]
  unreserved := by
    intro j u hu hprepared
    obtain ⟨t, ht, -, rfl⟩ := (transactions_endProcess m).mp hu
    rw [pid_reparent]
    rintro rfl
    have hphase := h.phases.phase ht
    have hstate : t.state = .prepared := hprepared
    simp only [Transaction.Phase, hstate, StateManager.stateOf, column_of_get _ hp] at hphase
    cases hphase.2

/-! ## Exit records -/

variable {status : Int}

theorem StateManager.Gone.exitRecords (hgone : m.Gone pid)
    (h : ForAll m.exitRecords fun q s => q = pid → s = status) (hchange : Change e m m') :
    ForAll m'.exitRecords fun q s => q = pid → s = status := by
  cases hchange with
  | endProcess hevent hpid hfresh hforks hexecs hrecorded =>
    refine recorded_forAll (fun heq => ?_) h hrecorded
    have hunowned := hgone.unowned
    rw [← heq, StateManager.peerOf, column_of_get _ hpid] at hunowned
    cases hunowned
  | abortFork hevent ht hpending =>
    rw [abortTransaction_of_pending ht hpending]
    exact h
  | abortExec ht hpending =>
    rw [abortExecTransaction_of_pending ht hpending]
    exact h
  | _ => exact h

/-- A process that has an exit record never runs again, and the record, until it expires, keeps its
status. -/
theorem exit_record_kept (h : ReachableState m) (hrecord : m.exitRecords[pid]? = some status)
    (inputs : List Event) : (run step m inputs).peerOf pid = none ∧
      ∀ s : Int, (run step m inputs).exitRecords[pid]? = some s → s = status := by
  have hsound := h.sound
  have hlog := hsound.coherent.exitLog
  have hgone : m.Gone pid := ⟨hsound.coherent.numbering.exit pid status hrecord,
    column_eq_none.mpr (column_eq_none.mp (hlog.gone pid status hrecord)),
    hlog.unreserved pid status hrecord⟩
  have hkept : ForAll m.exitRecords fun q s => q = pid → s = status := by
    rintro q s hs rfl
    exact Option.some.inj (hs.symm.trans hrecord)
  clear hlog hrecord h
  induction inputs generalizing m with
  | nil => exact ⟨hgone.unowned, fun s hs => hkept pid s hs rfl⟩
  | cons e inputs ih =>
    have hnext := (hsound.transition e).preserves (P := fun m => m.Gone pid ∧
        ForAll m.exitRecords fun q s => q = pid → s = status)
      (fun _ _ _ hm hchange => ⟨hm.1.change hchange, hm.1.exitRecords hm.2 hchange⟩) ⟨hgone, hkept⟩
    exact ih (hsound.step e) hnext.1 hnext.2

/-- Process 1 exits with status 7, and another worker connects. -/
theorem exit_record_kept_seven :
    let m := run step smallManager (smallExec.take 1 ++ [.processExited ⟨10, 1⟩ 7])
    (run step m smallExec).peerOf 1 = none ∧
      ∀ s : Int, (run step m smallExec).exitRecords[1]? = some s → s = 7 :=
  exit_record_kept (smallManager_reaches _) (by decide +kernel) smallExec

end Kinakaze.Manager

/-!
## Referential integrity and quotas

The tables of the manager refer to each other by number, and nothing but the
discipline of the calls keeps the numbers valid.  In a reachable state they all
are, so no `unwrap`, `expect` or index of a call fails; a call that is refused
has changed nothing; and no table outgrows its limit.

* `integrity`: every reference of a reachable state is valid, and no call panics.
* `refused_unchanged`: refused calls, quotas and process numbers.
-/

namespace Kinakaze.Manager

open Kinakaze.Library Kinakaze.Protocol

/-- The references between the tables. -/
structure Integrity (m : StateManager) : Prop where
  requestKeys : ∀ {pid key id : Nat} {p : Process}, m.processes[pid]? = some p →
    p.requestKeys[key]? = some id →
    ∃ t : Transaction, m.transactions[id]? = some t ∧ t.parent = pid
  execRequestKeys : ∀ {pid key id : Nat} {p : Process}, m.processes[pid]? = some p →
    p.execRequestKeys[key]? = some id →
    ∃ t : ExecTransaction, m.execTransactions[id]? = some t ∧ t.process = pid
  pending : ∀ {pid id : Nat} {p : Process}, m.processes[pid]? = some p → p.state = .pending id →
    ∃ t : Transaction, m.transactions[id]? = some t ∧ t.state.terminal = false
  prepared : ∀ {id : Nat} {t : Transaction}, m.transactions[id]? = some t →
    t.state = .prepared → ∃ snapshot : Snapshot, t.snapshot = some snapshot
  ready : ∀ {id : Nat} {t : Transaction}, m.transactions[id]? = some t →
    t.state = .ready → ∃ p : Process, m.processes[t.ticket.child.pid]? = some p
  processObjects : ∀ {pid id : Nat} {p : Process} {key : StateKey},
    m.processes[pid]? = some p → p.snapshot.states[key]? = some id →
    ∃ o : Object, m.objects[id]? = some o
  snapshotObjects : ∀ {j id : Nat} {t : Transaction} {snapshot : Snapshot} {key : StateKey},
    m.transactions[j]? = some t → t.snapshot = some snapshot →
    snapshot.states[key]? = some id → ∃ o : Object, m.objects[id]? = some o
  noOtherObjects : ∀ {id : Nat} {o : Object}, m.objects[id]? = some o →
    (∃ (pid : Nat) (p : Process) (key : StateKey), m.processes[pid]? = some p ∧
      p.snapshot.states[key]? = some id) ∨
    ∃ (j : Nat) (t : Transaction) (snapshot : Snapshot) (key : StateKey),
      m.transactions[j]? = some t ∧ t.snapshot = some snapshot ∧ snapshot.states[key]? = some id
  exitOrder : m.exitOrder.Nodup ∧
    ∀ pid : Nat, pid ∈ m.exitOrder ↔ ∃ status : Int, m.exitRecords[pid]? = some status

variable {m : StateManager}

theorem Coherent.pending_unfinished (h : Coherent m) {pid id : Nat} {p : Process}
    (hp : m.processes[pid]? = some p) (hpending : p.state = .pending id) :
    ∃ t : Transaction, m.transactions[id]? = some t ∧ t.state.terminal = false := by
  obtain ⟨t, ht, rfl⟩ := h.pending_transaction hp hpending
  refine ⟨t, ht, ?_⟩
  have hphase := h.phases.phase ht
  rw [StateManager.stateOf, column_of_get _ hp, hpending] at hphase
  cases hstate : t.state <;> simp_all [Transaction.Phase, TransactionState.terminal]

theorem reservation_statesOf {j : Nat} {t : Transaction} {snapshot : Snapshot}
    (ht : m.transactions[j]? = some t) (hsnapshot : t.snapshot = some snapshot) :
    m.statesOf (.reservation j) = some snapshot.states := by
  simp [StateManager.statesOf, ht, Transaction.reserved, hsnapshot]

theorem Sound.wellFormed (h : Sound m) : Integrity m where
  requestKeys hp hkey := h.coherent.fork_of_key hp hkey
  execRequestKeys hp hkey := h.coherent.exec_of_key hp hkey
  pending hp hpending := h.coherent.pending_unfinished hp hpending
  prepared ht hprepared := by
    have hphase := h.coherent.phases.phase ht
    simp only [Transaction.Phase, hprepared] at hphase
    exact Option.ne_none_iff_exists'.mp hphase.1
  ready ht hready := h.coherent.child_live ht hready
  processObjects hp hkey := h.coherent.object_of_key hp hkey
  snapshotObjects ht hsnapshot hkey :=
    h.coherent.references.defined (reservation_statesOf ht hsnapshot) hkey
  noOtherObjects {id o} ho := by
    obtain ⟨x, s, key, hx, hkey⟩ := h.collected id o ho
    cases x with
    | process pid =>
      obtain ⟨p, hp, rfl⟩ := column_eq_some.mp hx
      exact .inl ⟨pid, p, key, hp, hkey⟩
    | reservation j =>
      obtain ⟨t, ht, hreserved⟩ := Option.bind_eq_some_iff.mp hx
      obtain ⟨snapshot, hsnapshot, rfl⟩ := Option.map_eq_some_iff.mp hreserved
      exact .inr ⟨j, t, snapshot, key, ht, hsnapshot, hkey⟩
  exitOrder := ⟨h.coherent.exitLog.listed.nodup, h.coherent.exitLog.listed.mem⟩

/-- In a reachable state every reference is valid, and no call panics. -/
theorem integrity (h : ReachableState m) :
    Integrity m ∧ ∀ (e : Event) (fault : Fault), outcome m e = .error fault →
      ∃ answer : RpcError, fault = .rejected answer :=
  ⟨h.sound.wellFormed, fun _ _ herror => (h.sound.outcome_error herror).1⟩

theorem integrity_smallExec : Integrity (run step smallManager smallExec) ∧
    ∀ (e : Event) (fault : Fault), outcome (run step smallManager smallExec) e = .error fault →
      ∃ answer : RpcError, fault = .rejected answer :=
  integrity (smallManager_reaches smallExec)

/-! ## Quotas -/

/-- The bounds on the tables, and the range of the process numbers. -/
structure WithinLimits (m : StateManager) : Prop extends Quotas m where
  exitRecords : m.exitRecords.size ≤ m.limits.maxExitRecords
  pids : ∀ pid : Nat, m.Known pid → 1 ≤ pid ∧ pid ≤ i32Max

theorem Coherent.withinLimits (h : Coherent m) : WithinLimits m where
  toQuotas := h.quotas
  exitRecords := h.exitLog.bounded
  pids pid hpid := by
    have hrange := h.numbering.known_lt hpid
    have hcounter := h.numbering.pids.2
    omega

/-- A refused call has changed nothing, the tables stay within their limits, and
each move of the process counter hands out a number that is never handed out again. -/
theorem refused_unchanged (h : ReachableState m) :
    (∀ (e : Event) (fault : Fault), outcome m e = .error fault → step m e = m) ∧ WithinLimits m ∧
      (∀ e : Event, (step m e).nextPid = m.nextPid ∨ Issued m e m.nextPid) ∧
      ∀ (e : Event) (pid : Nat), Issued m e pid → 1 ≤ pid ∧ pid ≤ i32Max ∧
        ∀ (inputs : List Event) (e' : Event), ¬ Issued (run step (step m e) inputs) e' pid := by
  refine ⟨fun e fault herror => (h.sound.outcome_error herror).2, h.sound.coherent.withinLimits,
    fun e => ?_, fun e pid hissued => ?_⟩
  · rcases pids_step h.sound e with hquiet | hissues
    · exact .inl hquiet.counter
    · exact .inr ((issued_iff h.sound).mpr ⟨rfl, hissues.counter⟩)
  · have hrange := ((h.sound.step e).coherent.withinLimits).pids pid hissued.2
    exact ⟨hrange.1, hrange.2, not_issued_twice h.sound hissued⟩

theorem refused_unchanged_smallExec :
    (∀ (e : Event) (fault : Fault), outcome (run step smallManager smallExec) e = .error fault →
      step (run step smallManager smallExec) e = run step smallManager smallExec) ∧
      WithinLimits (run step smallManager smallExec) :=
  have h := refused_unchanged (smallManager_reaches smallExec)
  ⟨h.1, h.2.1⟩

end Kinakaze.Manager
