import Kinakaze.Manager.Disconnection

/-!
# A native exit, step by step

`processExitedWithStatus` walks over the exec transactions, the connections and
the processes of the dead native identity, and may report a second exit on the
way.  Under the invariant an identity has one role, so the walk finds at most
one exec transaction to act on, at most one process to remove, and the second
report is the last.
-/

namespace Kinakaze.Manager

open Kinakaze.Library Kinakaze.Protocol

variable {m m' : StateManager} {e : Event} {peer : PeerIdentity} {status : Int}

/-! ## The pass over the exec transactions -/

/-- The exit of `peer` decides something about the committed exec. -/
def ExecTransaction.Concerns (t : ExecTransaction) (peer : PeerIdentity) : Prop :=
  t.retiring = true ∧ (t.target = peer ∨ t.ownerPeer = peer)

/-- The pass over the exec transactions. -/
def StateManager.sweepExecs (m : StateManager) (peer : PeerIdentity) (status : Int) : ExecSweep :=
  m.execTransactions.toList.foldl (ExecSweep.visit peer status) ⟨m, [], []⟩

/-- The state the pass leaves, with the records of replaced images dropped. -/
def StateManager.afterSweep (m : StateManager) (peer : PeerIdentity) (status : Int) :
    StateManager :=
  (m.sweepExecs peer status).replacedImages.foldl StateManager.dropReplacedImage
    (m.sweepExecs peer status).manager

variable {t : ExecTransaction} {id : Nat}

theorem visit_idle {sweep : ExecSweep}
    (ht : sweep.manager.execTransactions[id]? = some t) (hidle : ¬ t.Concerns peer) :
    sweep.visit peer status (id, t) = sweep := by
  unfold ExecTransaction.Concerns at hidle
  have htarget : (t.retiring && t.target == peer) = false := by
    rw [Bool.and_eq_false_iff, beq_eq_false_iff_ne, ← Bool.not_eq_true]
    tauto
  have howner : (t.retiring && t.ownerPeer == peer) = false := by
    rw [Bool.and_eq_false_iff, beq_eq_false_iff_ne, ← Bool.not_eq_true]
    tauto
  simp only [ExecSweep.visit, htarget, howner, Bool.false_eq_true, if_false]
  rw [insert_eq_self ht]

theorem foldl_visit_idle (l : List (Nat × ExecTransaction)) (sweep : ExecSweep)
    (hl : ∀ entry ∈ l, sweep.manager.execTransactions[entry.1]? = some entry.2 ∧
      ¬ entry.2.Concerns peer) : l.foldl (ExecSweep.visit peer status) sweep = sweep := by
  induction l with
  | nil => rfl
  | cons entry l ih =>
    obtain ⟨ht, hidle⟩ := hl entry List.mem_cons_self
    rw [List.foldl_cons, visit_idle ht hidle]
    exact ih fun other hmem => hl other (List.mem_cons_of_mem _ hmem)

theorem sweepExecs_idle (hidle : ∀ (id : Nat) (t : ExecTransaction),
    m.execTransactions[id]? = some t → ¬ t.Concerns peer) :
    m.sweepExecs peer status = ⟨m, [], []⟩ := by
  refine foldl_visit_idle _ _ fun entry hmem => ?_
  have ht := Std.ExtTreeMap.mem_toList_iff_getElem?_eq_some.mp hmem
  exact ⟨ht, hidle _ _ ht⟩

theorem sweepExecs_single (ht : m.execTransactions[id]? = some t)
    (hothers : ∀ (j : Nat) (u : ExecTransaction), m.execTransactions[j]? = some u →
      u.Concerns peer → j = id)
    (hframe : ∀ j : Nat, j ≠ id → (ExecSweep.visit peer status ⟨m, [], []⟩
      (id, t)).manager.execTransactions[j]? = m.execTransactions[j]?) :
    m.sweepExecs peer status = ExecSweep.visit peer status ⟨m, [], []⟩ (id, t) := by
  obtain ⟨before, after, hsplit⟩ := List.append_of_mem
    (Std.ExtTreeMap.mem_toList_iff_getElem?_eq_some.mpr ht)
  have hkeys := nodup_keys_toList m.execTransactions
  rw [hsplit, List.map_append, List.map_cons, List.nodup_middle] at hkeys
  have hfresh := (List.nodup_cons.mp hkeys).1
  have hother : ∀ entry ∈ before ++ after, m.execTransactions[entry.1]? = some entry.2 ∧
      ¬ entry.2.Concerns peer ∧ entry.1 ≠ id := by
    intro entry hmem
    have hne : entry.1 ≠ id := by
      intro heq
      rw [← List.map_append] at hfresh
      exact hfresh (List.mem_map.mpr ⟨entry, hmem, heq⟩)
    have hread : m.execTransactions[entry.1]? = some entry.2 := by
      rw [← Std.ExtTreeMap.mem_toList_iff_getElem?_eq_some, hsplit]
      rcases List.mem_append.mp hmem with hmem | hmem
      · exact List.mem_append_left _ hmem
      · exact List.mem_append_right _ (List.mem_cons_of_mem _ hmem)
    exact ⟨hread, fun hconcerns => hne (hothers _ _ hread hconcerns), hne⟩
  rw [StateManager.sweepExecs, hsplit, List.foldl_append, List.foldl_cons, foldl_visit_idle before]
  · refine foldl_visit_idle after _ fun entry hmem => ?_
    obtain ⟨hread, hidle, hne⟩ := hother entry (List.mem_append_right _ hmem)
    exact ⟨(hframe _ hne).trans hread, hidle⟩
  · intro entry hmem
    obtain ⟨hread, hidle, -⟩ := hother entry (List.mem_append_left _ hmem)
    exact ⟨hread, hidle⟩

/-! ## The roles of the dead identity -/

section Roles

variable {id : Nat} {t : ExecTransaction}

theorem retiring_not_aborted (h : Coherent m) (ht : m.execTransactions[id]? = some t)
    (hretiring : t.retiring = true) : t.state = .committed :=
  (h.authority.wellFormed ht).retiringIff.mp hretiring

theorem concerns_unique (h : Coherent m) {j : Nat} {u : ExecTransaction}
    (ht : m.execTransactions[id]? = some t) (hu : m.execTransactions[j]? = some u)
    (htconcerns : t.Concerns peer) (huconcerns : u.Concerns peer) : j = id := by
  obtain ⟨htretiring, htrole⟩ := htconcerns
  obtain ⟨huretiring, hurole⟩ := huconcerns
  have htcommitted := retiring_not_aborted h ht htretiring
  have hucommitted := retiring_not_aborted h hu huretiring
  have htowner := h.authority.execOwner ht
  have huowner := h.authority.execOwner hu
  rcases htrole with rfl | rfl <;> rcases hurole with hrole | hrole
  · exact h.authority.targetsDistinct hu ht hrole
  · exact absurd (hrole ▸ huowner) (h.authority.targetUnowned ht)
  · exact absurd (hrole ▸ htowner) (h.authority.targetUnowned hu)
  · refine h.authority.execUnique hu ht ?_ ?_ ?_
    · exact h.authority.peersDistinct (hrole ▸ huowner) htowner
    · rw [hucommitted]; exact nofun
    · rw [htcommitted]; exact nofun

theorem sweepExecs_target (h : Coherent m) (ht : m.execTransactions[id]? = some t)
    (hretiring : t.retiring = true) (htarget : t.target = peer) :
    m.sweepExecs peer status = ⟨m.noteExit id status, [], []⟩ := by
  subst htarget
  have howner : (t.ownerPeer == t.target) = false := by
    rw [beq_eq_false_iff_ne]
    intro heq
    exact h.authority.targetUnowned ht (heq ▸ h.authority.execOwner ht)
  have hvisit : ExecSweep.visit t.target status ⟨m, [], []⟩ (id, t) =
      ⟨m.noteExit id status, [], []⟩ := by
    simp only [ExecSweep.visit, hretiring, beq_self_eq_true, Bool.and_true, if_true,
      howner, Bool.and_false, Bool.false_eq_true, if_false, StateManager.noteExit]
    rw [modify_eq_insert _ ht, hretiring]
  rw [sweepExecs_single ht fun j u hu hconcerns =>
    concerns_unique h ht hu ⟨hretiring, .inl rfl⟩ hconcerns]
  · exact hvisit
  · intro j hne
    rw [hvisit, StateManager.noteExit, get_modify, if_neg hne.symm]

theorem sweepExecs_owner (h : Coherent m) (ht : m.execTransactions[id]? = some t)
    (hretiring : t.retiring = true) (howner : t.ownerPeer = peer) :
    m.sweepExecs peer status =
      { manager := { m with
          execTransactions := m.execTransactions.insert id { t with retiring := false }
          processes := m.processes.modify t.process fun p => { p with peer := t.target }
          clients := match t.candidate with
            | some candidate =>
              m.clients.modify candidate fun c => { c with kind := .worker t.process }
            | none => m.clients }
        deferredExits := match t.candidateExit with
          | some exit => [(t.target, exit)]
          | none => []
        replacedImages := [t.process] } := by
  subst howner
  have htarget : (t.target == t.ownerPeer) = false := by
    rw [beq_eq_false_iff_ne]
    intro heq
    exact h.authority.targetUnowned ht (heq ▸ h.authority.execOwner ht)
  rw [sweepExecs_single ht fun j u hu hconcerns =>
    concerns_unique h ht hu ⟨hretiring, .inr rfl⟩ hconcerns]
  · simp only [ExecSweep.visit, htarget, hretiring, Bool.and_false, Bool.false_eq_true, if_false,
      beq_self_eq_true, Bool.and_true, if_true, List.nil_append]
    all_goals rfl
  · intro j hne
    simp only [ExecSweep.visit, htarget, hretiring, Bool.and_false, Bool.false_eq_true, if_false,
      beq_self_eq_true, Bool.and_true, if_true]
    rw [get_insert, if_neg hne.symm]

theorem afterSweep_idle (hidle : ∀ (id : Nat) (t : ExecTransaction),
    m.execTransactions[id]? = some t → ¬ t.Concerns peer) : m.afterSweep peer status = m := by
  rw [StateManager.afterSweep, sweepExecs_idle hidle]
  rfl

theorem afterSweep_target (h : Coherent m) (ht : m.execTransactions[id]? = some t)
    (hretiring : t.retiring = true) (htarget : t.target = peer) :
    m.afterSweep peer status = m.noteExit id status := by
  rw [StateManager.afterSweep, sweepExecs_target h ht hretiring htarget]
  rfl

theorem afterSweep_owner (h : Coherent m) (ht : m.execTransactions[id]? = some t)
    (hretiring : t.retiring = true) (howner : t.ownerPeer = peer) :
    m.afterSweep peer status = m.promote t := by
  have hexecs : (m.execTransactions.insert id { t with retiring := false }).filter
      (fun _ u => u.process != t.process) =
      m.execTransactions.filter fun _ u => u.process != t.process := by
    refine Std.ExtTreeMap.ext_getElem? fun j => ?_
    rw [get_filter, get_filter, get_insert]
    split
    · next heq =>
      rw [← heq, ht]
      simp [Option.filter]
    · rfl
  rw [StateManager.afterSweep, sweepExecs_owner h ht hretiring howner]
  simp only [List.foldl_cons, List.foldl_nil, StateManager.dropReplacedImage,
    StateManager.promote, hexecs]
  congr 1
  refine Std.ExtTreeMap.ext_getElem? fun q => ?_
  rw [get_modify, get_modify, get_modify]
  split <;> simp [Function.comp_def]

end Roles

/-! ## The connections of the dead identity -/

theorem disconnect_clients (m : StateManager) (client : ClientId) :
    (m.disconnect client).clients = m.clients.erase client := by
  unfold StateManager.disconnect
  simp only [releaseReservations_clients]
  split
  · next hnone => rw [releaseReservations_clients, erase_eq_self hnone]
  · next c hclient =>
    have hframe : ∀ m' : StateManager, m'.collectObjects.clients = m'.clients := fun _ => rfl
    rw [hframe]
    split
    · split
      · rw [abortPendingExecFor_clients, abortPendingFor_clients]
      · rfl
    · rw [abortExecTransaction_frame]
    · rfl
    · rfl
    · rfl
    · rfl

theorem clients_foldl_disconnect (l : List ClientId) (m : StateManager) (j : ClientId) :
    (l.foldl StateManager.disconnect m).clients[j]? = if j ∈ l then none else m.clients[j]? := by
  induction l generalizing m with
  | nil => rfl
  | cons i l ih =>
    rw [List.foldl_cons, ih, disconnect_clients, get_erase]
    by_cases hi : i = j
    · simp [hi]
    · simp [hi, Ne.symm hi]

theorem foldl_disconnect_steps (h : Coherent m) {l : List ClientId} (hnodup : l.Nodup)
    (hl : ∀ i ∈ l, ∃ c : Client, m.clients[i]? = some c ∧ c.peer = peer) :
    Steps (.processExited peer status) m (l.foldl StateManager.disconnect m) := by
  induction l generalizing m with
  | nil => exact .refl
  | cons i l ih =>
    obtain ⟨hfresh, hnodup⟩ := List.nodup_cons.mp hnodup
    obtain ⟨c, hc, rfl⟩ := hl i List.mem_cons_self
    have hends : (Event.processExited c.peer status).Ends m i := .inr ⟨c, status, hc, rfl⟩
    have hsteps := disconnect_steps h hends
    refine hsteps.trans (ih (h.steps hsteps) hnodup fun j hj => ?_)
    have hne : i ≠ j := by
      rintro rfl
      exact hfresh hj
    rw [disconnect_clients, get_erase, if_neg hne]
    exact hl j (List.mem_cons_of_mem _ hj)

/-- Abort the execs that wait for `peer` and close its connections. -/
def StateManager.reap (m : StateManager) (peer : PeerIdentity) : StateManager :=
  let m := (selectKeys m.execTransactions fun t => t.target == peer).foldl
    StateManager.abortExecTransaction m
  (selectKeys m.clients fun c => c.peer == peer).foldl StateManager.disconnect m

variable (peer status) in
theorem reap_steps (h : Coherent m) : Steps (.processExited peer status) m (m.reap peer) := by
  have habort := steps_foldl_abortExec (e := .processExited peer status)
    (selectKeys m.execTransactions fun t => t.target == peer) m
  refine habort.trans (foldl_disconnect_steps (h.steps habort) (nodup_selectKeys _ _) ?_)
  intro i hi
  obtain ⟨c, hc, hpeer⟩ := mem_selectKeys.mp hi
  exact ⟨c, hc, beq_iff_eq.mp hpeer⟩

theorem clients_reap {j : ClientId} {c : Client} :
    (m.reap peer).clients[j]? = some c ↔ m.clients[j]? = some c ∧ c.peer ≠ peer := by
  have hclients : ((selectKeys m.execTransactions fun t => t.target == peer).foldl
      StateManager.abortExecTransaction m).clients = m.clients := by
    rw [foldl_abortExec_frame]
  rw [StateManager.reap, clients_foldl_disconnect, hclients]
  simp only [mem_selectKeys, beq_iff_eq]
  constructor
  · intro hc
    split at hc
    · cases hc
    · next hother => exact ⟨hc, fun hpeer => hother ⟨c, hc, hpeer⟩⟩
  · rintro ⟨hc, hpeer⟩
    rw [if_neg]
    · exact hc
    · rintro ⟨d, hd, hdpeer⟩
      rw [← Option.some.inj (hc.symm.trans hd)] at hdpeer
      exact hpeer hdpeer

theorem reap_noClient : (m.reap peer).NoClient peer :=
  fun _ _ hc => (clients_reap.mp hc).2

/-! ## The process of the dead identity -/

/-- No committed exec is waiting for the identity to die. -/
def StateManager.Current (m : StateManager) (peer : PeerIdentity) : Prop :=
  ForAll m.execTransactions fun _ t => t.retiring = true → t.ownerPeer ≠ peer

/-- The exit of the identity decides nothing about an exec. -/
def StateManager.Idle (m : StateManager) (peer : PeerIdentity) : Prop :=
  ForAll m.execTransactions fun _ t => t.retiring = true → ¬ (t.target = peer ∨ t.ownerPeer = peer)

theorem retiring_change {R : PeerIdentity → PeerIdentity → Prop}
    (h : ForAll m.execTransactions fun _ t => t.retiring = true → R t.ownerPeer t.target)
    (hchange : Change (.processExited peer status) m m') :
    ForAll m'.execTransactions fun _ t => t.retiring = true → R t.ownerPeer t.target := by
  cases hchange with
  | connectExec | execReady | noteExit => exact h.modify fun _ _ hu => hu
  | addExec => exact h.insert nofun
  | commitExec hevent => cases hevent
  | abortExec ht hpending =>
    rw [abortExecTransaction_of_pending ht hpending]
    exact h.modify fun _ _ hu => hu
  | forgetExec => exact h.erase _
  | promote | endProcess => exact h.filter _
  | abortFork hevent ht hpending =>
    rw [abortTransaction_of_pending ht hpending]
    exact h
  | _ => exact h

theorem StateManager.Current.steps {x : PeerIdentity} (h : m.Current x)
    (hsteps : Steps (.processExited peer status) m m') : m'.Current x :=
  hsteps.preserves (P := (StateManager.Current · x))
    (fun _ _ hm hchange => retiring_change (R := fun owner _ => owner ≠ x) hm hchange) h

theorem StateManager.Idle.steps {x : PeerIdentity} (h : m.Idle x)
    (hsteps : Steps (.processExited peer status) m m') : m'.Idle x :=
  hsteps.preserves (P := (StateManager.Idle · x)) (fun _ _ hm hchange =>
    retiring_change (R := fun owner target => ¬ (target = x ∨ owner = x)) hm hchange) h

theorem Coherent.committed_of_owned (h : Coherent m) (hcurrent : m.Current peer) {pid : Nat}
    (hpid : m.peerOf pid = some peer)
    (ht : m.execTransactions[id]? = some t) (hprocess : t.process = pid) :
    t.state ≠ .committed := by
  intro hcommitted
  have howner := h.authority.execOwner ht
  rw [hprocess, hpid] at howner
  exact hcurrent id t ht ((h.authority.wellFormed ht).retiringIff.mpr hcommitted)
    (Option.some.inj howner).symm

/-- What the exit of process `pid` makes of the exit table. -/
def StateManager.exitTable (m : StateManager) (status : Int) (pid : Nat) : List Nat × Table Int :=
  if m.limits.maxExitRecords = 0 then (m.exitOrder, m.exitRecords)
  else
    match expireExitRecords m.limits.maxExitRecords m.exitOrder m.exitRecords with
    | some (order, records) => (order ++ [pid], records.insert pid status)
    | none => (m.exitOrder, m.exitRecords)

/-- The end of process `pid`, with the aborts before it. -/
def StateManager.bury (m : StateManager) (status : Int) (pid : Nat) : StateManager :=
  (m.abortOf (.worker pid)).endProcess pid (m.exitTable status pid).1 (m.exitTable status pid).2

theorem exitTable_recorded (h : ExitLog m) (pid : Nat) :
    Recorded m.limits.maxExitRecords pid status m.exitOrder m.exitRecords
      (m.exitTable status pid).1 (m.exitTable status pid).2 := by
  unfold StateManager.exitTable
  by_cases hmax : m.limits.maxExitRecords = 0
  · rw [if_pos hmax]
    exact .inl ⟨hmax, rfl, rfl⟩
  · obtain ⟨kept, rest, hexpire, -⟩ := expireExitRecords_spec (Nat.pos_of_ne_zero hmax) h.listed
    rw [if_neg hmax, hexpire]
    exact .inr ⟨Nat.pos_of_ne_zero hmax, kept, rest, hexpire, rfl, rfl⟩

theorem abortOf_frame (m : StateManager) (kind : ClientKind) : m.abortOf kind = { m with
    transactions := (m.abortOf kind).transactions
    processes := (m.abortOf kind).processes
    execTransactions := (m.abortOf kind).execTransactions
    retiredPeers := (m.abortOf kind).retiredPeers } := by
  cases kind with
  | worker pid =>
    have hforks : m.abortPendingFor pid = { m with
        transactions := (m.abortPendingFor pid).transactions
        processes := (m.abortPendingFor pid).processes } := foldl_abort_frame _ m
    have hexecs : (m.abortPendingFor pid).abortPendingExecFor pid = { m.abortPendingFor pid with
          execTransactions := (m.abortOf (.worker pid)).execTransactions
          retiredPeers := (m.abortOf (.worker pid)).retiredPeers } :=
      foldl_abortExec_frame _ _
    change (m.abortPendingFor pid).abortPendingExecFor pid = _
    have htransactions : (m.abortOf (.worker pid)).transactions =
        (m.abortPendingFor pid).transactions := abortPendingExecFor_transactions pid
    have hprocesses : (m.abortOf (.worker pid)).processes =
        (m.abortPendingFor pid).processes := abortPendingExecFor_processes pid
    rw [hexecs, hforks, htransactions, hprocesses]
  | execCandidate pid id =>
    rw [StateManager.abortOf, abortExecTransaction_frame]
  | _ => rfl

variable (status) in
theorem exec_recordExit (h : Listed m.exitOrder m.exitRecords) (pid : Nat) :
    exec (recordExit pid status) m = (.ok ⟨⟩, { m with
      exitOrder := (m.exitTable status pid).1
      exitRecords := (m.exitTable status pid).2 }) := by
  unfold recordExit StateManager.exitTable
  rw [exec_bind, exec_get]
  by_cases hmax : m.limits.maxExitRecords = 0
  · simp only [hmax, if_true, exec_pure]
  · obtain ⟨kept, rest, hexpire, -⟩ := expireExitRecords_spec (Nat.pos_of_ne_zero hmax) h
    simp only [if_neg hmax, hexpire, unwrap, require, exec_bind, exec_pure, exec_set]

theorem peerOf_foldl_abort (l : List Nat) (m : StateManager) :
    (l.foldl StateManager.abortTransaction m).peerOf = m.peerOf := by
  induction l generalizing m with
  | nil => rfl
  | cons id l ih => rw [List.foldl_cons, ih, peerOf_abortTransaction]

@[simp] theorem peerOf_abortOf (m : StateManager) (kind : ClientKind) :
    (m.abortOf kind).peerOf = m.peerOf := by
  cases kind with
  | worker pid =>
    have hprocesses : (m.abortOf (.worker pid)).processes = (m.abortPendingFor pid).processes :=
      abortPendingExecFor_processes pid
    rw [StateManager.peerOf, hprocesses]
    exact peerOf_foldl_abort _ m
  | execCandidate pid id =>
    rw [StateManager.abortOf, abortExecTransaction_frame]
    rfl
  | _ => rfl

theorem exec_removeProcess (h : Listed m.exitOrder m.exitRecords) (pid : Nat) :
    exec (removeProcess status pid) m = (.ok ⟨⟩, m.bury status pid) := by
  have hframe : (m.abortPendingFor pid).abortPendingExecFor pid = m.abortOf (.worker pid) := rfl
  have hrecord := exec_recordExit (m := { m.abortOf (.worker pid) with
    processes := (m.abortOf (.worker pid)).processes.erase pid }) status
    (by rw [abortOf_frame]; exact h) pid
  dsimp only at hrecord
  simp only [removeProcess, exec_bind, exec_modify, hframe, hrecord]
  rw [StateManager.bury, abortOf_frame]
  rfl

theorem bury_steps (h : Coherent m) (hcurrent : m.Current peer) (hfresh : m.NoClient peer)
    {pid : Nat} (hpid : m.peerOf pid = some peer) :
    Steps (.processExited peer status) m (m.bury status pid) := by
  have habort : Steps (.processExited peer status) m (m.abortOf (.worker pid)) :=
    abortOf_steps (e := .processExited peer status) trivial (.worker pid) m
  have hpeer : (m.abortOf (.worker pid)).peerOf pid = some peer := by
    rw [peerOf_abortOf]
    exact hpid
  obtain ⟨p, hp, rfl⟩ := column_eq_some.mp hpeer
  refine habort.tail (.endProcess rfl hp ?_ (fun j u hu hpending => abortOf_forks hu hpending)
    (fun j u hu hprocess => ?_) ?_)
  · rw [StateManager.NoClient, abortOf_clients]
    exact hfresh
  · have hterminal := abortOf_execs hu hprocess
    have hcommitted := (h.steps habort).committed_of_owned (hcurrent.steps habort) hpeer hu hprocess
    cases hstate : u.state <;> simp_all [TransactionState.terminal]
  · rw [abortOf_frame]
    exact exitTable_recorded h.exitLog pid

/-! ## The whole notification -/

/-- What a native exit does once the exec transactions have been passed over. -/
def StateManager.settleExit (m : StateManager) (peer : PeerIdentity) (status : Int) :
    StateManager :=
  let m := m.reap peer
  let m := (selectKeys m.processes fun p => p.peer == peer).foldl
    (fun m pid => m.bury status pid) m
  { m with retiredPeers := m.retiredPeers.erase peer }.collectObjects

theorem peerOf_disconnect (m : StateManager) (client : ClientId) :
    (m.disconnect client).peerOf = m.peerOf := by
  unfold StateManager.disconnect
  simp only [releaseReservations_clients]
  split
  · exact peerOf_releaseReservations m client
  · next c hclient =>
    have hframe : ∀ m' : StateManager, m'.collectObjects.peerOf = m'.peerOf := fun _ => rfl
    rw [hframe]
    split
    · split
      · exact (peerOf_abortOf _ (.worker _)).trans (peerOf_releaseReservations m client)
      · exact peerOf_releaseReservations m client
    · exact (peerOf_abortOf _ (.execCandidate 0 _)).trans (peerOf_releaseReservations m client)
    · exact peerOf_releaseReservations m client
    · exact peerOf_releaseReservations m client
    · exact peerOf_releaseReservations m client
    · exact peerOf_releaseReservations m client

theorem peerOf_reap (m : StateManager) (peer : PeerIdentity) : (m.reap peer).peerOf = m.peerOf := by
  have hexecs : ((selectKeys m.execTransactions fun t => t.target == peer).foldl
      StateManager.abortExecTransaction m).peerOf = m.peerOf := by
    rw [foldl_abortExec_frame]
    rfl
  have hclients : ∀ (l : List ClientId) (m : StateManager),
      (l.foldl StateManager.disconnect m).peerOf = m.peerOf := by
    intro l
    induction l with
    | nil => exact fun _ => rfl
    | cons i l ih =>
      intro m
      rw [List.foldl_cons, ih, peerOf_disconnect]
  exact (hclients _ _).trans hexecs

variable (peer) in
theorem selectKeys_owned (h : Coherent m) :
    (selectKeys m.processes fun p => p.peer == peer) = [] ∧ (∀ pid : Nat, m.peerOf pid ≠ some peer) ∨
      ∃ pid : Nat, (selectKeys m.processes fun p => p.peer == peer) = [pid] ∧
        m.peerOf pid = some peer := by
  by_cases howned : ∃ pid : Nat, m.peerOf pid = some peer
  · obtain ⟨pid, hpid⟩ := howned
    obtain ⟨p, hp, hpeer⟩ := column_eq_some.mp hpid
    refine .inr ⟨pid, selectKeys_eq_singleton hp (beq_iff_eq.mpr hpeer) ?_, hpid⟩
    intro q p' hq hp'
    exact h.authority.peersDistinct (column_eq_some.mpr ⟨p', hq, beq_iff_eq.mp hp'⟩) hpid
  · have hnone : ∀ pid : Nat, m.peerOf pid ≠ some peer := fun pid hpid => howned ⟨pid, hpid⟩
    refine .inl ⟨selectKeys_eq_nil fun q p hq => ?_, hnone⟩
    rw [beq_eq_false_iff_ne]
    exact fun hpeer => hnone q (column_eq_some.mpr ⟨p, hq, hpeer⟩)

theorem clients_bury (m : StateManager) (pid : Nat) : (m.bury status pid).clients = m.clients := by
  have hframe : (m.bury status pid).clients = (m.abortOf (.worker pid)).clients := rfl
  rw [hframe, abortOf_clients]

theorem peerOf_bury (m : StateManager) (pid q : Nat) :
    (m.bury status pid).peerOf q = if pid = q then none else m.peerOf q := by
  rw [StateManager.bury, peerOf_endProcess, peerOf_abortOf]

/-- The state before the identity is struck off: nothing uses it any more. -/
structure Struck (peer : PeerIdentity) (m : StateManager) : Prop where
  noClient : m.NoClient peer
  unowned : ∀ pid : Nat, m.peerOf pid ≠ some peer

variable (status) in
theorem removals_spec (h : Coherent m) (hcurrent : m.Current peer) (hfresh : m.NoClient peer) :
    Steps (.processExited peer status) m ((selectKeys m.processes fun p => p.peer == peer).foldl
        (fun m pid => m.bury status pid) m) ∧
      Struck peer ((selectKeys m.processes fun p => p.peer == peer).foldl
        (fun m pid => m.bury status pid) m) := by
  rcases selectKeys_owned peer h with ⟨hnone, hunowned⟩ | ⟨pid, hpid, howned⟩
  · rw [hnone]
    exact ⟨.refl, hfresh, hunowned⟩
  rw [hpid, List.foldl_cons, List.foldl_nil]
  refine ⟨bury_steps h hcurrent hfresh howned, ?_, fun q hq => ?_⟩
  · rw [StateManager.NoClient, clients_bury]
    exact hfresh
  · rw [peerOf_bury] at hq
    split at hq
    · cases hq
    · next hne => exact hne (h.authority.peersDistinct howned hq)

variable (status) in
theorem settleExit_steps (h : Coherent m) (hcurrent : m.Current peer) :
    Steps (.processExited peer status) m (m.settleExit peer status) := by
  have hreap := reap_steps peer status h
  obtain ⟨hsteps, hstruck⟩ := removals_spec status (h.steps hreap) (hcurrent.steps hreap)
    reap_noClient
  exact ((hreap.trans hsteps).tail (.forgetRetired rfl hstruck.noClient hstruck.unowned)).tail
    .collect

theorem settleExit_collected (m : StateManager) : (m.settleExit peer status).collected :=
  collected_collectObjects _

variable (peer status) in
theorem exec_removals (h : Coherent m) :
    exec ((selectKeys m.processes fun p => p.peer == peer).forM (removeProcess status)) m =
      (.ok ⟨⟩, (selectKeys m.processes fun p => p.peer == peer).foldl
        (fun m pid => m.bury status pid) m) := by
  rcases selectKeys_owned peer h with ⟨hnone, -⟩ | ⟨pid, hpid, -⟩
  · rw [hnone]
    rfl
  · rw [hpid]
    simp only [List.forM, exec_bind, exec_removeProcess h.exitLog.listed,
      exec_pure, List.foldl_cons, List.foldl_nil]

variable (peer status) in
theorem afterSweep_spec (h : Coherent m) :
    Steps (.processExited peer status) m (m.afterSweep peer status) ∧
      (m.afterSweep peer status).Current peer := by
  by_cases hconcerns : ∃ (id : Nat) (t : ExecTransaction), m.execTransactions[id]? = some t ∧
      t.Concerns peer
  · obtain ⟨id, t, ht, hretiring, hrole⟩ := hconcerns
    rcases hrole with rfl | rfl
    · rw [afterSweep_target h ht hretiring rfl]
      have hnone : m.Current t.target := by
        rintro j u hu - howner
        refine absurd (h.authority.execOwner hu) ?_
        rw [howner]
        exact h.authority.targetUnowned ht
      exact ⟨.single (.noteExit rfl ht hretiring), hnone.modify fun _ _ hu => hu⟩
    · rw [afterSweep_owner h ht hretiring rfl]
      refine ⟨.single (.promote rfl ht hretiring), fun j u hu _ howner => ?_⟩
      obtain ⟨hu, hother⟩ := get_filter_eq_some.mp hu
      have hprocess := h.authority.peersDistinct (howner ▸ h.authority.execOwner hu)
        (h.authority.execOwner ht)
      simp [hprocess] at hother
  · have hidle : ∀ (id : Nat) (t : ExecTransaction), m.execTransactions[id]? = some t →
        ¬ t.Concerns peer := fun id t ht hc => hconcerns ⟨id, t, ht, hc⟩
    rw [afterSweep_idle hidle]
    exact ⟨.refl, fun id t ht hretiring howner => hidle id t ht ⟨hretiring, .inr howner⟩⟩

theorem exec_processExitedWithin (h : Coherent m) (fuel : Nat) :
    exec (processExitedWithin (fuel + 1) peer status) m =
      exec ((m.sweepExecs peer status).deferredExits.forM fun exit =>
        processExitedWithin fuel exit.1 exit.2) ((m.afterSweep peer status).settleExit peer status) := by
  obtain ⟨hsteps, hcurrent⟩ := afterSweep_spec peer status h
  have hcoherent := (h.steps hsteps).steps (reap_steps peer status (h.steps hsteps))
  have hremovals := exec_removals peer status hcoherent
  simp only [StateManager.settleExit, StateManager.reap, StateManager.afterSweep,
    StateManager.sweepExecs] at hremovals ⊢
  simp only [processExitedWithin, exec_bind, exec_get, exec_set, hremovals, exec_modify]

variable (status) in
theorem sweepExecs_of_current (h : Coherent m) (hcurrent : m.Current peer) :
    m.sweepExecs peer status = ⟨m, [], []⟩ ∨
      ∃ (id : Nat) (t : ExecTransaction), m.execTransactions[id]? = some t ∧
        t.retiring = true ∧ t.target = peer ∧
        m.sweepExecs peer status = ⟨m.noteExit id status, [], []⟩ := by
  by_cases htarget : ∃ (id : Nat) (t : ExecTransaction), m.execTransactions[id]? = some t ∧
      t.retiring = true ∧ t.target = peer
  · obtain ⟨id, t, ht, hretiring, htarget⟩ := htarget
    exact .inr ⟨id, t, ht, hretiring, htarget, sweepExecs_target h ht hretiring htarget⟩
  refine .inl (sweepExecs_idle ?_)
  rintro id t ht ⟨hretiring, hrole | hrole⟩
  · exact htarget ⟨id, t, ht, hretiring, hrole⟩
  · exact hcurrent id t ht hretiring hrole

theorem peerOf_afterSweep (h : Coherent m) (hcurrent : m.Current peer) :
    (m.afterSweep peer status).peerOf = m.peerOf := by
  rw [StateManager.afterSweep]
  rcases sweepExecs_of_current status h hcurrent with
    hsweep | ⟨id, t, ht, hretiring, htarget, hsweep⟩ <;> rw [hsweep] <;> rfl

theorem exec_exit_of_current (h : Coherent m) (hcurrent : m.Current peer) (fuel : Nat) :
    exec (processExitedWithin (fuel + 1) peer status) m =
      (.ok ⟨⟩, (m.afterSweep peer status).settleExit peer status) := by
  have hdeferred : (m.sweepExecs peer status).deferredExits = [] := by
    rcases sweepExecs_of_current status h hcurrent with
      hsweep | ⟨id, t, ht, hretiring, htarget, hsweep⟩ <;> rw [hsweep]
  rw [exec_processExitedWithin h, hdeferred]
  rfl

theorem afterSweep_of_idle (hidle : m.Idle peer) : m.afterSweep peer status = m :=
  afterSweep_idle fun id t ht hconcerns => hidle id t ht hconcerns.1 hconcerns.2

theorem StateManager.Idle.current (hidle : m.Idle peer) : m.Current peer :=
  hidle.mono fun _ _ ht hretiring howner => ht hretiring (.inr howner)

theorem promote_idle (h : Coherent m)
    (ht : m.execTransactions[id]? = some t) : (m.promote t).Idle t.target := by
  rintro j u hu hretiring (htarget | howner)
  · obtain ⟨hu, hother⟩ := get_filter_eq_some.mp hu
    rw [h.authority.targetsDistinct hu ht htarget] at hu
    simp [Option.some.inj (hu.symm.trans ht)] at hother
  · obtain ⟨hu, -⟩ := get_filter_eq_some.mp hu
    exact h.authority.targetUnowned ht (howner ▸ h.authority.execOwner hu)

/-- The state after a native exit, when an exec was waiting for it. -/
def StateManager.takeOver (m : StateManager) (t : ExecTransaction) (status : Int) :
    StateManager :=
  let m := (m.promote t).settleExit t.ownerPeer status
  match t.candidateExit with
  | some exit => m.settleExit t.target exit
  | none => m

theorem exec_exit_of_replaced (h : Coherent m)
    (ht : m.execTransactions[id]? = some t) (hretiring : t.retiring = true) (fuel : Nat) :
    exec (processExitedWithin (fuel + 2) t.ownerPeer status) m = (.ok ⟨⟩, m.takeOver t status) := by
  obtain ⟨hsweep, hcurrent⟩ := afterSweep_spec t.ownerPeer status h
  rw [exec_processExitedWithin h, sweepExecs_owner h ht hretiring rfl]
  rw [afterSweep_owner h ht hretiring rfl] at hsweep hcurrent ⊢
  have hsteps := hsweep.trans (settleExit_steps _ (h.steps hsweep) hcurrent)
  have hidle : ((m.promote t).settleExit t.ownerPeer status).Idle t.target :=
    (promote_idle h ht).steps (settleExit_steps status (h.steps hsweep) hcurrent)
  cases hexit : t.candidateExit with
  | none =>
    simp only [StateManager.takeOver, hexit]
    rfl
  | some exit =>
    simp only [StateManager.takeOver, hexit, List.forM, exec_bind,
      exec_exit_of_current (h.steps hsteps) hidle.current, afterSweep_of_idle hidle, exec_pure]

end Kinakaze.Manager
