import Kinakaze.Manager.Phases

/-!
# Replay keys, exit records and quotas

Request keys are the index of the replay records: a key of a process leads to a
transaction of that process.  Exit records are kept in the order the processes
ended, and a process that ended never comes back.  The quotas bound the tables.
-/

namespace Kinakaze.Manager

open Kinakaze.Library Kinakaze.Protocol

/-! ## Request keys -/

/-- The process each fork transaction belongs to. -/
def StateManager.forkParent (m : StateManager) : Nat → Option Nat :=
  column m.transactions Transaction.parent

/-- The process each exec transaction belongs to. -/
def StateManager.execProcess (m : StateManager) : Nat → Option Nat :=
  column m.execTransactions ExecTransaction.process

/-- A request key of a process leads to a transaction of that process. -/
structure Keys (processes : Table Process) (forkParent execProcess : Nat → Option Nat) :
    Prop where
  fork : ForAll processes fun pid p => ∀ key id : Nat, p.requestKeys[key]? = some id →
    forkParent id = some pid
  exec : ForAll processes fun pid p => ∀ key id : Nat, p.execRequestKeys[key]? = some id →
    execProcess id = some pid

abbrev StateManager.keys (m : StateManager) : Prop :=
  Keys m.processes m.forkParent m.execProcess

theorem Keys.initial {m : StateManager} (h : Initial m) : m.keys := by
  cases h <;> exact ⟨.empty, .empty⟩

section Components

variable {processes : Table Process} {forkParent forkParent' execProcess execProcess' :
  Nat → Option Nat}

theorem Keys.insert (h : Keys processes forkParent execProcess) (pid : Nat) {p : Process}
    (hfork : p.requestKeys = ∅) (hexec : p.execRequestKeys = ∅) :
    Keys (processes.insert pid p) forkParent execProcess where
  fork := h.fork.insert fun key id hkey => by simp [hfork] at hkey
  exec := h.exec.insert fun key id hkey => by simp [hexec] at hkey

theorem Keys.modify (h : Keys processes forkParent execProcess) (pid : Nat) {f : Process → Process}
    (hfork : ∀ p : Process, (f p).requestKeys = p.requestKeys)
    (hexec : ∀ p : Process, (f p).execRequestKeys = p.execRequestKeys) :
    Keys (processes.modify pid f) forkParent execProcess where
  fork := h.fork.modify fun p _ hp => by rw [hfork]; exact hp
  exec := h.exec.modify fun p _ hp => by rw [hexec]; exact hp

theorem Keys.grow (h : Keys processes forkParent execProcess)
    (hfork : ∀ id pid : Nat, forkParent id = some pid → forkParent' id = some pid)
    (hexec : ∀ id pid : Nat, execProcess id = some pid → execProcess' id = some pid) :
    Keys processes forkParent' execProcess' where
  fork := h.fork.mono fun pid _ hp key id hkey => hfork id pid (hp key id hkey)
  exec := h.exec.mono fun pid _ hp key id hkey => hexec id pid (hp key id hkey)

end Components

variable {m m' : StateManager} {e : Event} {id pid : Nat}

theorem forkParent_modify {f : Transaction → Transaction}
    (hf : ∀ t : Transaction, (f t).parent = t.parent) (j pid : Nat) (hj : m.forkParent j = some pid)
    :
    column (m.transactions.modify id f) Transaction.parent j = some pid :=
  (congrFun (column_modify_eq _ _ hf) j).trans hj

variable {f : ExecTransaction → ExecTransaction}

theorem execProcess_modify (hf : ∀ t : ExecTransaction, (f t).process = t.process) (j pid : Nat)
    (hj : m.execProcess j = some pid) :
    column (m.execTransactions.modify id f) ExecTransaction.process j = some pid :=
  (congrFun (column_modify_eq _ _ hf) j).trans hj

section Rows

variable {β : Type} {rows : Table β} {owner : β → Nat} {processes : Table Process}
  {keysOf : Process → Table Nat} {g : Process → Process} {row : β}
  (h : ForAll processes fun pid p => ∀ key id : Nat, (keysOf p)[key]? = some id →
    column rows owner id = some pid)
include h

theorem leads_insert (hid : rows[id]? = none) {requestKey : Nat}
    (hg : ∀ p, keysOf (g p) = (keysOf p).insert requestKey id) :
    ForAll (processes.modify (owner row) g) fun pid p => ∀ key j : Nat,
      (keysOf p)[key]? = some j → column (rows.insert id row) owner j = some pid := by
  have hold : ∀ j pid : Nat, column rows owner j = some pid →
      column (rows.insert id row) owner j = some pid := by
    intro j pid hj
    rw [column_insert, if_neg]
    · exact hj
    · rintro rfl
      rw [column_eq_none.mpr hid] at hj
      cases hj
  intro q p hq key j hkey
  rw [get_modify] at hq
  split at hq
  · next hrow =>
    obtain ⟨p₀, hp₀, rfl⟩ := Option.map_eq_some_iff.mp hq
    rw [hg, get_insert] at hkey
    split at hkey
    · rw [column_insert, if_pos (Option.some.inj hkey), hrow]
    · exact hold j q (h q p₀ hp₀ key j hkey)
  · exact hold j q (h q p hq key j hkey)

theorem leads_erase (hrow : rows[id]? = some row) (hpid : owner row = pid)
    (hg : ∀ p, keysOf (g p) = (keysOf p).filter fun _ value => value != id) :
    ForAll (processes.modify pid g) fun pid p => ∀ key j : Nat,
      (keysOf p)[key]? = some j → column (rows.erase id) owner j = some pid := by
  intro q p hq key j hkey
  rw [column_erase]
  rw [get_modify] at hq
  split at hq
  · obtain ⟨p₀, hp₀, rfl⟩ := Option.map_eq_some_iff.mp hq
    rw [hg] at hkey
    obtain ⟨hkey, hne⟩ := get_filter_eq_some.mp hkey
    rw [if_neg fun heq => by simp [heq] at hne]
    exact h q p₀ hp₀ key j hkey
  · next hother =>
    have hj := h q p hq key j hkey
    rw [if_neg]
    · exact hj
    · rintro rfl
      rw [column_of_get _ hrow, hpid] at hj
      exact hother (Option.some.inj hj)

end Rows

theorem Keys.addTransaction (h : m.keys) (hid : m.transactions[m.nextTransaction]? = none)
    (key : Nat) (t : Transaction) : (m.addTransaction t.parent key t).keys where
  exec := h.exec.modify fun p _ hp => hp
  fork := leads_insert h.fork hid fun _ => rfl

theorem Keys.addExec (h : m.keys) (hid : m.execTransactions[m.nextTransaction]? = none)
    (key : Nat) (t : ExecTransaction) : (m.addExec t.process key t).keys where
  fork := h.fork.modify fun p _ hp => hp
  exec := leads_insert h.exec hid fun _ => rfl

theorem Keys.forgetTransaction (h : m.keys) {t : Transaction} (ht : m.transactions[id]? = some t)
    (hparent : t.parent = pid) : (m.forgetTransaction pid id).keys where
  exec := h.exec.modify fun p _ hp => hp
  fork := leads_erase h.fork ht hparent fun _ => rfl

variable {t : ExecTransaction}

theorem Keys.forgetExec (h : m.keys) (ht : m.execTransactions[id]? = some t)
    (hprocess : t.process = pid) : (m.forgetExec pid id).keys where
  fork := h.fork.modify fun p _ hp => hp
  exec := leads_erase h.exec ht hprocess fun _ => rfl

theorem Keys.promote (h : m.keys) (t : ExecTransaction) : (m.promote t).keys where
  fork := by
    intro q p hq key j hkey
    rw [StateManager.promote, get_modify] at hq
    split at hq
    · next hpid =>
      obtain ⟨p₀, hp₀, rfl⟩ := Option.map_eq_some_iff.mp hq
      obtain ⟨hkey, hkept⟩ := get_filter_eq_some.mp hkey
      have hmem : (m.promote t).transactions.contains j = true := hkept
      rw [Std.ExtTreeMap.contains_eq_isSome_getElem?] at hmem
      obtain ⟨u, hu⟩ := Option.isSome_iff_exists.mp hmem
      have hj := h.fork q p₀ hp₀ key j hkey
      rw [StateManager.forkParent, column_of_get _ (get_filter_eq_some.mp hu).1] at hj
      exact (column_of_get _ hu).trans hj
    · next hpid =>
      have hj := h.fork q p hq key j hkey
      obtain ⟨u, hu, hparent⟩ := column_eq_some.mp hj
      refine (column_of_get _ (get_filter_eq_some.mpr ⟨hu, ?_⟩)).trans (congrArg some hparent)
      simp [hparent, Ne.symm hpid]
  exec := by
    intro q p hq key j hkey
    rw [StateManager.promote, get_modify] at hq
    split at hq
    · obtain ⟨p₀, hp₀, rfl⟩ := Option.map_eq_some_iff.mp hq
      simp at hkey
    · next hpid =>
      have hj := h.exec q p hq key j hkey
      obtain ⟨u, hu, hprocess⟩ := column_eq_some.mp hj
      refine (column_of_get _ (get_filter_eq_some.mpr ⟨hu, ?_⟩)).trans (congrArg some hprocess)
      simp [hprocess, Ne.symm hpid]

theorem Keys.endProcess (h : m.keys) (pid : Nat) (order : List Nat) (records : Table Int) :
    (m.endProcess pid order records).keys where
  fork := by
    intro q p hq key j hkey
    obtain ⟨hne, p₀, hp₀, rfl⟩ := (processes_endProcess m).mp hq
    have hj := h.fork q p₀ hp₀ key j hkey
    obtain ⟨u, hu, hparent⟩ := column_eq_some.mp hj
    exact (column_of_get _ ((transactions_endProcess m).mpr
      ⟨u, hu, by rw [hparent]; exact hne, rfl⟩)).trans (congrArg some hparent)
  exec := by
    intro q p hq key j hkey
    obtain ⟨hne, p₀, hp₀, rfl⟩ := (processes_endProcess m).mp hq
    have hj := h.exec q p₀ hp₀ key j hkey
    obtain ⟨u, hu, hprocess⟩ := column_eq_some.mp hj
    refine (column_of_get _ (get_filter_eq_some.mpr ⟨hu, ?_⟩)).trans (congrArg some hprocess)
    simp [hprocess, hne]

theorem Keys.change (h : m.keys) (hn : Numbering m) (hchange : Change e m m') : m'.keys := by
  cases hchange with
  | shutdown | connectControl | setValue | collect | dropClient | forgetRetired => exact h
  | connectRoot => exact h.insert _ rfl rfl
  | connectFork =>
    exact (h.insert _ rfl rfl).grow (forkParent_modify fun _ => rfl) fun _ _ hid => hid
  | connectExec | execReady | commitExec | noteExit =>
    exact h.grow (fun _ _ hid => hid) (execProcess_modify fun _ => rfl)
  | park | bindLaunch | addModule | addState => exact h.modify _ (fun _ => rfl) fun _ => rfl
  | @reserveFork _ client pid requestKey parentPid next p token objects states =>
    have hbase : StateManager.keys { m with
        nextPid := m.nextPid + 1, objects := objects, nextObject := next } := h
    exact hbase.addTransaction hn.fork_fresh requestKey
      { parent := pid, .. }
  | forkReady => exact h.grow (forkParent_modify fun _ => rfl) fun _ _ hid => hid
  | commitFork =>
    exact (h.modify _ (by intro; rfl) (by intro; rfl)).grow (forkParent_modify fun _ => rfl)
      fun _ _ hid => hid
  | abortFork hevent ht hpending =>
    rw [abortTransaction_of_pending ht hpending]
    exact (h.modify _ (by intro; rfl) (by intro; rfl)).grow (forkParent_modify fun _ => rfl)
      fun _ _ hid => hid
  | @addExec _ client pid requestKey p target =>
    exact h.addExec hn.exec_fresh requestKey { process := pid, .. }
  | abortExec ht hpending =>
    rw [abortExecTransaction_of_pending ht hpending]
    exact h.grow (fun _ _ hid => hid) (execProcess_modify fun _ => rfl)
  | forgetFork hevent howner ht hparent hterminal => exact h.forgetTransaction ht hparent
  | forgetExec hevent howner ht hprocess haborted => exact h.forgetExec ht hprocess
  | release =>
    exact ⟨h.fork.map fun _ p hp => by split <;> exact hp,
      h.exec.map fun _ p hp => by split <;> exact hp⟩
  | promote => exact h.promote _
  | endProcess => exact h.endProcess _ _ _

/-! ## Exit records -/

/-- The retention order lists the recorded processes once each. -/
structure Listed (order : List Nat) (records : Table Int) : Prop where
  nodup : order.Nodup
  mem : ∀ pid : Nat, pid ∈ order ↔ ∃ status : Int, records[pid]? = some status

/-- Expiring the oldest records always makes room, and only drops records. -/
theorem expireExitRecords_spec {maxRecords : Nat} (hmax : 0 < maxRecords) {order : List Nat}
    {records : Table Int} (h : Listed order records) :
    ∃ (kept : List Nat) (rest : Table Int),
      expireExitRecords maxRecords order records = some (kept, rest) ∧ Listed kept rest ∧
        rest.size < maxRecords ∧
        ∀ (pid : Nat) (status : Int), rest[pid]? = some status → records[pid]? = some status := by
  induction order generalizing records with
  | nil =>
    have hempty : records.size < maxRecords := by
      have hnone : records = ∅ := by
        refine Std.ExtTreeMap.ext_getElem? fun pid => ?_
        cases hpid : records[pid]? with
        | none => simp
        | some status => exact absurd ((h.mem pid).mpr ⟨status, hpid⟩) List.not_mem_nil
      rw [hnone, Std.ExtTreeMap.size_empty]
      exact hmax
    exact ⟨[], records, by rw [expireExitRecords, if_pos hempty], h, hempty, fun _ _ hs => hs⟩
  | cons expired order ih =>
    by_cases hroom : records.size < maxRecords
    · exact ⟨expired :: order, records, by rw [expireExitRecords, if_pos hroom], h, hroom,
        fun _ _ hs => hs⟩
    obtain ⟨hnot, hnodup⟩ := List.nodup_cons.mp h.nodup
    have hrest : Listed order (records.erase expired) := by
      refine ⟨hnodup, fun pid => ?_⟩
      rw [get_erase]
      split
      · next heq => simp [← heq, hnot]
      · next hne =>
        rw [← h.mem, List.mem_cons]
        exact ⟨.inr, fun hmem => hmem.resolve_left (Ne.symm hne)⟩
    obtain ⟨kept, rest, hexpire, hlisted, hsize, hsub⟩ := ih hrest
    refine ⟨kept, rest, ?_, hlisted, hsize, fun pid status hs => ?_⟩
    · rw [expireExitRecords, if_neg hroom]
      exact hexpire
    · have hs' := hsub pid status hs
      rw [get_erase] at hs'
      split at hs'
      · cases hs'
      · exact hs'

/-- Recorded processes are gone, and no reservation will bring them back. -/
structure ExitLog (m : StateManager) : Prop where
  listed : Listed m.exitOrder m.exitRecords
  bounded : m.exitRecords.size ≤ m.limits.maxExitRecords
  gone : ForAll m.exitRecords fun pid _ => m.stateOf pid = none
  unreserved : ForAll m.exitRecords fun pid _ => ForAll m.transactions fun _ t =>
    t.state = .prepared → t.ticket.child.pid ≠ pid

theorem ExitLog.initial (h : Initial m) : ExitLog m := by
  cases h <;> exact ⟨⟨List.nodup_nil, by simp [StateManager.withLimits,
    StateManager.forProcessTree, StateManager.new]⟩, Nat.zero_le _, .empty, .empty⟩

theorem Recorded.listed {maxRecords : Nat} {status : Int} {order order' : List Nat}
    {records records' : Table Int}
    (h : Recorded maxRecords pid status order records order' records')
    (hlisted : Listed order records) (hbound : records.size ≤ maxRecords)
    (hpid : records[pid]? = none) : Listed order' records' ∧ records'.size ≤ maxRecords := by
  rcases h with ⟨-, rfl, rfl⟩ | ⟨hmax, kept, rest, hexpire, rfl, rfl⟩
  · exact ⟨hlisted, hbound⟩
  obtain ⟨kept', rest', hexpire', hkept, hsize, hsub⟩ := expireExitRecords_spec hmax hlisted
  rw [hexpire] at hexpire'
  cases hexpire'
  have hnone : rest[pid]? = none := by
    cases hrest : rest[pid]? with
    | none => rfl
    | some s => rw [hsub pid s hrest] at hpid; cases hpid
  have hnot : pid ∉ kept := by
    intro hmem
    obtain ⟨s, hs⟩ := (hkept.mem pid).mp hmem
    rw [hnone] at hs
    cases hs
  refine ⟨⟨?_, fun q => ?_⟩, ?_⟩
  · exact List.nodup_append.mpr ⟨hkept.nodup, List.nodup_singleton pid, by
      rintro a ha b hb rfl
      exact hnot (List.mem_singleton.mp hb ▸ ha)⟩
  · rw [get_insert, List.mem_append, List.mem_singleton, hkept.mem]
    split
    · next heq => simp [heq]
    · next hne => simp [Ne.symm hne]
  · rw [size_insert_new _ hnone]
    exact hsize

theorem ExitLog.change (h : ExitLog m) (hn : Numbering m) (hp : m.phases)
    (hchange : Change e m m') : ExitLog m' := by
  cases hchange with
  | shutdown | connectControl | connectExec | setValue | collect | execReady | commitExec
  | dropClient | noteExit | forgetRetired => exact { h with }
  | connectRoot =>
    refine { h with gone := fun pid s hs => ?_ }
    refine (column_insert _ _ _ _ _).trans ?_
    rw [if_neg (Nat.ne_of_gt (hn.exit pid s hs))]
    exact h.gone pid s hs
  | connectFork hunknown htarget hfresh hroom ht hprepared hsnapshot =>
    refine { h with gone := fun pid s hs => ?_, unreserved := fun pid s hs => ?_ }
    · refine (column_insert _ _ _ _ _).trans ?_
      rw [if_neg (h.unreserved pid s hs _ _ ht hprepared)]
      exact h.gone pid s hs
    · exact (h.unreserved pid s hs).modify nofun
  | park => exact { h with gone := by rw [stateOf_setPrewarm]; exact h.gone }
  | bindLaunch => exact { h with gone := by rw [stateOf_bindLaunch]; exact h.gone }
  | addModule => exact { h with gone := by rw [stateOf_addModule]; exact h.gone }
  | addState => exact { h with gone := by rw [stateOf_addState]; exact h.gone }
  | reserveFork =>
    refine { h with
      gone := by rw [stateOf_reserveFork]; exact h.gone
      unreserved := fun pid s hs => ?_ }
    exact (h.unreserved pid s hs).insert fun _ => Nat.ne_of_gt (hn.exit pid s hs)
  | forkReady =>
    refine { h with unreserved := fun pid s hs => ?_ }
    exact (h.unreserved pid s hs).modify nofun
  | commitFork =>
    refine { h with gone := fun pid s hs => ?_, unreserved := fun pid s hs => ?_ }
    · refine (stateOf_activateChild _ _ _ _).trans ?_
      rw [h.gone pid s hs]
      split <;> rfl
    · exact (h.unreserved pid s hs).modify nofun
  | abortFork hevent ht hpending =>
    have hgone := stateOf_abortTransaction m ht hpending
    rw [abortTransaction_of_pending ht hpending] at hgone ⊢
    refine { h with gone := fun pid s hs => ?_, unreserved := fun pid s hs => ?_ }
    · refine (hgone pid).trans ?_
      rw [h.gone pid s hs]
      split <;> rfl
    · exact (h.unreserved pid s hs).modify nofun
  | addExec => exact { h with gone := by rw [stateOf_addExec]; exact h.gone }
  | abortExec ht hpending =>
    rw [abortExecTransaction_of_pending ht hpending]
    exact { h with }
  | forgetFork =>
    exact { h with
      gone := by rw [stateOf_forgetTransaction]; exact h.gone
      unreserved := fun pid s hs => (h.unreserved pid s hs).erase _ }
  | forgetExec => exact { h with gone := by rw [stateOf_forgetExec]; exact h.gone }
  | release => exact { h with gone := by rw [stateOf_releaseReservations]; exact h.gone }
  | promote =>
    exact { h with
      gone := by rw [stateOf_promote]; exact h.gone
      unreserved := fun pid s hs => (h.unreserved pid s hs).filter _ }
  | @endProcess pid p status order records hevent hpid hfresh hforks hexecs hrecorded =>
    have hlive : m.stateOf pid = some p.state := column_of_get _ hpid
    have hnone : m.exitRecords[pid]? = none := by
      cases hs : m.exitRecords[pid]? with
      | none => rfl
      | some s => rw [h.gone pid s hs] at hlive; cases hlive
    have hgone : ForAll records fun q _ =>
        (if pid = q then none else m.stateOf q) = none := by
      refine recorded_forAll (if_pos rfl) (h.gone.mono fun q _ hq => ?_) hrecorded
      rw [hq, ite_self]
    have hunreserved : ForAll records fun q _ => ForAll m.transactions fun _ t =>
        t.state = .prepared → t.ticket.child.pid ≠ q := by
      refine recorded_forAll ?_ h.unreserved hrecorded
      rintro id t ht hprepared rfl
      have hphase := hp.phase ht
      simp only [Transaction.Phase, hprepared, hlive] at hphase
      cases hphase.2
    obtain ⟨hlisted, hbounded⟩ := hrecorded.listed h.listed h.bounded hnone
    refine ⟨hlisted, hbounded, fun q s hq => ?_, fun q s hq id u hu hprepared => ?_⟩
    · exact (stateOf_endProcess _ _ _ _ _).trans (hgone q s hq)
    · obtain ⟨t, ht, -, rfl⟩ := (transactions_endProcess m).mp hu
      rw [pid_reparent]
      exact hunreserved q s hq id t ht hprepared

/-! ## Quotas -/

/-- The execs that still hold a place for a retirement. -/
def StateManager.pendingExecs (m : StateManager) : Nat :=
  countIf m.execTransactions fun t => !t.state.terminal

/-- Every table stays within its limit. -/
structure Quotas (m : StateManager) : Prop where
  processes : m.processes.size + m.reservedProcesses ≤ m.limits.maxProcesses
  clients : m.clients.size ≤ m.limits.maxClients
  modules : m.modules.size ≤ m.limits.maxModules
  objects : m.objects.size ≤ m.limits.maxObjects
  transactions : m.transactions.size + m.execTransactions.size ≤ m.limits.maxTransactions
  retirements : m.retiredPeers.card + m.pendingExecs ≤ m.limits.maxTransactions
  keys : ForAll m.processes fun _ p =>
    p.requestKeys.size + p.execRequestKeys.size ≤ m.limits.maxRequestKeysPerProcess

theorem Quotas.initial (h : Initial m) : Quotas m := by
  cases h <;> exact ⟨Nat.zero_le _, Nat.zero_le _, Nat.zero_le _, Nat.zero_le _,
    Nat.zero_le _, Nat.zero_le _, .empty⟩

section

variable (h : Quotas m)
include h

theorem Quotas.modifyProcess (pid : Nat) {f : Process → Process}
    (hkeys : ∀ p : Process, (f p).requestKeys.size + (f p).execRequestKeys.size ≤
      p.requestKeys.size + p.execRequestKeys.size) :
    Quotas { m with processes := m.processes.modify pid f } :=
  { h with
    processes := by
      rw [Std.ExtTreeMap.size_modify]
      exact h.processes
    keys := h.keys.modify fun p _ hp => Nat.le_trans (hkeys p) hp }

theorem Quotas.modifyFork (id : Nat) {f : Transaction → Transaction}
    (hf : ∀ t : Transaction, (f t).state = .prepared → t.state = .prepared) :
    Quotas { m with transactions := m.transactions.modify id f } :=
  { h with
    processes := by
      have hcount : countIf (m.transactions.modify id f) (fun t => t.state == .prepared) ≤
          m.reservedProcesses :=
        countIf_modify_le id fun t _ ht => by simpa using hf t (by simpa using ht)
      exact Nat.le_trans (Nat.add_le_add_left hcount _) h.processes
    transactions := by
      rw [Std.ExtTreeMap.size_modify]
      exact h.transactions }

theorem Quotas.modifyExec (id : Nat) (hf : ∀ t : ExecTransaction, m.execTransactions[id]? = some t →
      (f t).state.terminal = false → t.state.terminal = false) :
    Quotas { m with execTransactions := m.execTransactions.modify id f } :=
  { h with
    transactions := by
      rw [Std.ExtTreeMap.size_modify]
      exact h.transactions
    retirements := by
      have hcount : countIf (m.execTransactions.modify id f) (fun t => !t.state.terminal) ≤
          m.pendingExecs :=
        countIf_modify_le id fun t ht hp => by simpa using hf t ht (by simpa using hp)
      exact Nat.le_trans (Nat.add_le_add_left hcount _) h.retirements }

theorem Quotas.addClient (hroom : m.clients.size < m.limits.maxClients)
    (peer : PeerIdentity) (kind : ClientKind) : Quotas (m.addClient peer kind) :=
  { h with clients := Nat.le_trans Std.ExtTreeMap.size_insert_le hroom }

theorem Quotas.retire (ht : m.execTransactions[id]? = some t)
    (hpending : t.state.terminal = false) (hf : (f t).state.terminal = true)
    {retired : Finset PeerIdentity} (hretired : retired.card ≤ m.retiredPeers.card + 1) :
    Quotas { m with
      retiredPeers := retired
      execTransactions := m.execTransactions.modify id f } :=
  { h with
    transactions := by
      rw [Std.ExtTreeMap.size_modify]
      exact h.transactions
    retirements := by
      have hcount := countIf_modify (fun t => !t.state.terminal) f ht
      simp only [hpending, hf, Bool.not_false, Bool.not_true, if_true, if_false,
        Bool.false_eq_true] at hcount
      have hroom := h.retirements
      change retired.card + countIf (m.execTransactions.modify id f)
        (fun t => !t.state.terminal) ≤ m.limits.maxTransactions
      rw [StateManager.pendingExecs] at hroom
      omega }

end

variable {transactions : Table Transaction}

section

variable (h : Quotas m)
include h

theorem Quotas.addProcess (pid : Nat) {p : Process} (hfork : p.requestKeys = ∅)
    (hexec : p.execRequestKeys = ∅)
    (hroom : m.processes.size + 1 + countIf transactions (fun t => t.state == .prepared) ≤
      m.limits.maxProcesses) (hsize : transactions.size = m.transactions.size) :
    Quotas { m with
      processes := m.processes.insert pid p
      transactions := transactions } :=
  { h with
    processes :=
      Nat.le_trans (Nat.add_le_add_right Std.ExtTreeMap.size_insert_le _) hroom
    transactions := by
      rw [hsize]
      exact h.transactions
    keys := h.keys.insert (by simp [hfork, hexec]) }

theorem Quotas.addKey {p : Process} {f : Process → Process} (hp : m.processes[pid]? = some p)
    (hroom : p.requestKeys.size + p.execRequestKeys.size < m.limits.maxRequestKeysPerProcess)
    (hf : (f p).requestKeys.size + (f p).execRequestKeys.size ≤
      p.requestKeys.size + p.execRequestKeys.size + 1) :
    Quotas { m with processes := m.processes.modify pid f } :=
  { h with
    processes := by
      rw [Std.ExtTreeMap.size_modify]
      exact h.processes
    keys := h.keys.modify fun q hq _ => by
      rw [← Option.some.inj (hp.symm.trans hq)]
      exact Nat.le_trans hf hroom }

theorem Quotas.addFork (hn : Numbering m) (t : Transaction)
    (hroom : m.transactions.size + m.execTransactions.size < m.limits.maxTransactions)
    (hprocesses : m.processes.size + m.reservedProcesses < m.limits.maxProcesses) :
    Quotas { m with
      nextTransaction := m.nextTransaction + 1
      transactions := m.transactions.insert m.nextTransaction t } :=
  { h with
    processes := by
      have hcount := countIf_insert_new (fun t : Transaction => t.state == .prepared) t hn.fork_fresh
      change m.processes.size + countIf (m.transactions.insert m.nextTransaction t)
        (fun t => t.state == .prepared) ≤ m.limits.maxProcesses
      rw [StateManager.reservedProcesses] at hprocesses
      split at hcount <;> omega
    transactions := by
      have hsize := size_insert_new t hn.fork_fresh
      dsimp only
      omega }

theorem Quotas.addExec (hn : Numbering m) (t : ExecTransaction)
    (hroom : m.transactions.size + m.execTransactions.size < m.limits.maxTransactions)
    (hretirement : m.retiredPeers.card + m.pendingExecs < m.limits.maxTransactions) :
    Quotas { m with
      nextTransaction := m.nextTransaction + 1
      execTransactions := m.execTransactions.insert m.nextTransaction t } :=
  { h with
    transactions := by
      have hsize := size_insert_new t hn.exec_fresh
      dsimp only
      omega
    retirements := by
      have hcount :=
        countIf_insert_new (fun t : ExecTransaction => !t.state.terminal) t hn.exec_fresh
      change m.retiredPeers.card + countIf (m.execTransactions.insert m.nextTransaction t)
        (fun t => !t.state.terminal) ≤ m.limits.maxTransactions
      rw [StateManager.pendingExecs] at hretirement
      split at hcount <;> omega }

theorem Quotas.forget {processes : Table Process} {execs : Table ExecTransaction}
    (hprocesses : processes.size ≤ m.processes.size)
    (hkeys : ForAll processes fun pid p => ∃ p₀ : Process, m.processes[pid]? = some p₀ ∧
      p.requestKeys.size ≤ p₀.requestKeys.size ∧
      p.execRequestKeys.size ≤ p₀.execRequestKeys.size)
    (hreserved : countIf transactions (fun t => t.state == .prepared) ≤ m.reservedProcesses)
    (htransactions : transactions.size ≤ m.transactions.size)
    (hexecs : execs.size ≤ m.execTransactions.size)
    (hpending : countIf execs (fun t => !t.state.terminal) ≤ m.pendingExecs) :
    Quotas { m with
      processes := processes
      transactions := transactions
      execTransactions := execs } :=
  { h with
    processes := Nat.le_trans (Nat.add_le_add hprocesses hreserved) h.processes
    transactions := Nat.le_trans (Nat.add_le_add htransactions hexecs) h.transactions
    retirements := Nat.le_trans (Nat.add_le_add_left hpending _) h.retirements
    keys := fun pid p hp => by
      obtain ⟨p₀, hp₀, hfork, hexec⟩ := hkeys pid p hp
      exact Nat.le_trans (Nat.add_le_add hfork hexec) (h.keys pid p₀ hp₀) }

theorem Quotas.change (hn : Numbering m) (hchange : Change e m m') : Quotas m' := by
  have hself : ForAll m.processes fun pid p => ∃ p₀ : Process, m.processes[pid]? = some p₀ ∧
      p.requestKeys.size ≤ p₀.requestKeys.size ∧
      p.execRequestKeys.size ≤ p₀.execRequestKeys.size :=
    fun pid p hp => ⟨p, hp, Nat.le_refl _, Nat.le_refl _⟩
  cases hchange with
  | shutdown => exact { h with }
  | connectControl hkind hunknown htarget hhelper hroom => exact h.addClient hroom _ _
  | @connectRoot _ peer hunknown htarget hfresh hroom hprocesses hpids =>
    have hbase : Quotas { m with nextPid := m.nextPid + 1 } := { h with }
    have hroot : Quotas
        ({ m with nextPid := m.nextPid + 1 }.addRoot ⟨m.epoch, m.nextPid, 1, 0⟩ peer) :=
      hbase.addProcess m.nextPid rfl rfl (by rw [Nat.add_right_comm]; exact hprocesses) rfl
    exact hroot.addClient hroom _ _
  | @connectFork _ peer id t snapshot hunknown htarget hfresh hroom ht hprepared hsnapshot =>
    have hcount := countIf_modify (fun t : Transaction => t.state == .prepared)
      (fun t => { t with snapshot := none, state := .adopted }) ht
    have hattach : Quotas (m.attachFork id t.ticket.child peer snapshot) := by
      refine h.addProcess t.ticket.child.pid rfl rfl ?_ Std.ExtTreeMap.size_modify
      have hplaces := h.processes
      rw [StateManager.reservedProcesses] at hplaces
      simp [hprepared] at hcount
      omega
    exact hattach.addClient hroom _ _
  | @connectExec _ peer id t hunknown hfresh hroom ht htarget hprepared =>
    have hattach : Quotas (m.attachExec id m.nextClient) :=
      h.modifyExec id fun u hu _ => by
        rw [← Option.some.inj (ht.symm.trans hu), hprepared]
        rfl
    exact hattach.addClient hroom _ _
  | park | bindLaunch => exact h.modifyProcess _ fun _ => Nat.le_refl _
  | @addModule _ client pid moduleId schema p howner hactive hnew hroom =>
    have hsize : (m.modules.insert moduleId schema).size ≤ m.limits.maxModules := by
      rcases hroom with hknown | ⟨-, hroom⟩
      · have hmem : m.modules.contains moduleId = true := by
          rw [Std.ExtTreeMap.contains_eq_isSome_getElem?, hknown]
          rfl
        rw [Std.ExtTreeMap.size_insert, if_pos hmem]
        exact h.modules
      · exact Nat.le_trans Std.ExtTreeMap.size_insert_le hroom
    have hbase : Quotas { m with modules := m.modules.insert moduleId schema } :=
      { h with modules := hsize }
    exact hbase.modifyProcess pid fun _ => Nat.le_refl _
  | @addState _ client pid key object p howner hactive hnew hroom =>
    have hbase : Quotas (m.insertObject object) :=
      { h with objects := Nat.le_trans Std.ExtTreeMap.size_insert_le hroom }
    exact hbase.modifyProcess pid fun _ => Nat.le_refl _
  | setValue =>
    refine { h with objects := ?_ }
    rw [StateManager.setValue, Std.ExtTreeMap.size_modify]
    exact h.objects
  | @reserveFork _ client pid requestKey parentPid next p token objects states howner hactive
      hkey hparent hkeys hroom hprocesses hpids hcopied hobjects =>
      have hbase : Quotas { m with
          nextPid := m.nextPid + 1, objects := objects, nextObject := next } :=
        { h with objects := hobjects }
      have hnumbered : Numbering { m with
          nextPid := m.nextPid + 1, objects := objects, nextObject := next } :=
        { hn.nextPid hpids with object := fun _ _ ho => hcopied.bound ho }
      exact (hbase.addFork hnumbered _ hroom hprocesses).addKey howner.process hkeys
        ((Nat.add_le_add_right Std.ExtTreeMap.size_insert_le _).trans_eq (Nat.add_right_comm _ _ _))
  | forkReady => exact h.modifyFork _ nofun
  | @commitFork _ client pid id p t howner ht hparent hready =>
    exact (h.modifyProcess _ (by intro; exact Nat.le_refl _)).modifyFork id
      (by intro _ ht; cases ht)
  | @abortFork id t hevent ht hpending =>
    rw [abortTransaction_of_pending ht hpending]
    exact (h.modifyProcess _ (by intro; exact Nat.le_refl _)).modifyFork id
      (by intro _ ht; cases ht)
  | collect =>
    exact { h with objects := Nat.le_trans Std.ExtTreeMap.size_filter_le_size h.objects }
  | addExec howner hactive hkey hidle hunknown htarget hfresh hkeys hroom hretirement =>
    exact (h.addExec hn _ hroom hretirement).addKey howner.process hkeys
      (Nat.add_le_add_left Std.ExtTreeMap.size_insert_le _)
  | execReady hclient ht hcandidate hpending =>
    exact h.modifyExec _ fun u hu _ => by rwa [← Option.some.inj (ht.symm.trans hu)]
  | @commitExec _ client pid id p t entropy hevent howner ht hprocess hclient hready =>
    have hbase : Quotas { m with
        clients := m.clients.modify client fun c => { c with kind := .retired pid id } } :=
      { h with
        clients := by
          rw [Std.ExtTreeMap.size_modify]
          exact h.clients }
    exact hbase.retire ht (by rw [hready]; rfl) rfl (Finset.card_insert_le _ _)
  | abortExec ht hpending =>
    rw [abortExecTransaction_of_pending ht hpending]
    refine h.retire ht hpending rfl ?_
    split
    · exact Finset.card_insert_le _ _
    · exact Nat.le_succ _
  | forgetFork =>
    exact h.forget Std.ExtTreeMap.size_modify.le (hself.modify fun p hp _ =>
        ⟨p, hp, Std.ExtTreeMap.size_filter_le_size, Nat.le_refl _⟩)
      (countIf_erase_le _ _ _) Std.ExtTreeMap.size_erase_le (Nat.le_refl _) (Nat.le_refl _)
  | forgetExec =>
    exact h.forget Std.ExtTreeMap.size_modify.le (hself.modify fun p hp _ =>
        ⟨p, hp, Nat.le_refl _, Std.ExtTreeMap.size_filter_le_size⟩)
      (Nat.le_refl _) (Nat.le_refl _) Std.ExtTreeMap.size_erase_le (countIf_erase_le _ _ _)
  | release =>
    exact h.forget Std.ExtTreeMap.size_map.le (hself.map fun _ p hp => by split <;> exact hp)
      (Nat.le_refl _) (Nat.le_refl _) (Nat.le_refl _) (Nat.le_refl _)
  | dropClient =>
    exact { h with clients := Nat.le_trans Std.ExtTreeMap.size_erase_le h.clients }
  | noteExit => exact h.modifyExec _ fun _ _ ht => ht
  | @promote id t status hevent ht hretiring =>
    have hclients : (m.promote t).clients.size ≤ m.limits.maxClients := by
      unfold StateManager.promote
      cases t.candidate with
      | none => exact h.clients
      | some c =>
        dsimp only
        rw [Std.ExtTreeMap.size_modify]
        exact h.clients
    exact {
      h.forget Std.ExtTreeMap.size_modify.le (hself.modify fun p hp _ =>
          ⟨p, hp, Std.ExtTreeMap.size_filter_le_size, Nat.zero_le _⟩)
        (countIf_filter_le _) Std.ExtTreeMap.size_filter_le_size
        Std.ExtTreeMap.size_filter_le_size (countIf_filter_le _) with
      clients := hclients }
  | @endProcess pid p status order records =>
    have hbase : Quotas { m with exitRecords := records, exitOrder := order } := { h with }
    exact hbase.forget (Std.ExtTreeMap.size_map.le.trans Std.ExtTreeMap.size_erase_le)
      ((hself.erase pid).map (by intro _ _ hp; exact hp))
      ((countIf_filter_le _).trans (countIf_map_le (by intro _ _ ht; exact ht)))
      (Std.ExtTreeMap.size_filter_le_size.trans Std.ExtTreeMap.size_map.le)
      Std.ExtTreeMap.size_filter_le_size (countIf_filter_le _)
  | @forgetRetired peer =>
    have hcard : (m.retiredPeers.erase peer).card ≤ m.retiredPeers.card :=
      Finset.card_le_card (Finset.erase_subset _ _)
    exact { h with retirements := Nat.le_trans (Nat.add_le_add_right hcard _) h.retirements }

end

end Kinakaze.Manager
