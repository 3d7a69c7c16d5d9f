import Kinakaze.Manager.Coherence

/-!
# The end of a connection, step by step

`disconnect` aborts what the connection has left unfinished in two loops over
the transaction tables.  This module says what the loops do to each table, and
that under the invariant the whole call is a sequence of effects.
-/

namespace Kinakaze.Manager

open Kinakaze.Library Kinakaze.Protocol

variable {m m' : StateManager} {e : Event}

/-! ## Aborting -/

/-- What aborting makes of a fork transaction. -/
def Transaction.revoke (t : Transaction) : Transaction :=
  if t.state.terminal then t else { t with state := .aborted, snapshot := none }

/-- What aborting makes of an exec transaction. -/
def ExecTransaction.revoke (t : ExecTransaction) : ExecTransaction :=
  if t.state.terminal then t else { t with state := .aborted }

section Revoke

variable (t : Transaction) (u : ExecTransaction)

@[simp] theorem revoke_terminal : t.revoke.state.terminal = true := by
  unfold Transaction.revoke
  split
  · next h => exact h
  · rfl

theorem revoke_of_terminal {t : Transaction} (h : t.state.terminal = true) : t.revoke = t :=
  if_pos h

@[simp] theorem revoke_revoke : t.revoke.revoke = t.revoke :=
  revoke_of_terminal (revoke_terminal t)

@[simp] theorem revokeExec_terminal : u.revoke.state.terminal = true := by
  unfold ExecTransaction.revoke
  split
  · next h => exact h
  · rfl

theorem revokeExec_of_terminal {u : ExecTransaction} (h : u.state.terminal = true) : u.revoke = u :=
  if_pos h

@[simp] theorem revokeExec_revoke : u.revoke.revoke = u.revoke :=
  revokeExec_of_terminal (revokeExec_terminal u)

end Revoke

theorem transactions_abortTransaction (id : Nat) :
    (m.abortTransaction id).transactions = m.transactions.modify id Transaction.revoke := by
  by_cases hpending : ∃ t : Transaction, m.transactions[id]? = some t ∧ t.state.terminal = false
  · obtain ⟨t, ht, hpending⟩ := hpending
    rw [abortTransaction_of_pending ht hpending, modify_eq_insert _ ht, modify_eq_insert _ ht]
    simp [Transaction.revoke, hpending]
  · have hterminal : ∀ t : Transaction, m.transactions[id]? = some t →
        t.state.terminal = true := by simpa using hpending
    rw [abortTransaction_of_not_pending hterminal]
    exact (modify_eq_self _ fun t ht => revoke_of_terminal (hterminal t ht)).symm

theorem execTransactions_abortExecTransaction (id : Nat) :
    (m.abortExecTransaction id).execTransactions =
      m.execTransactions.modify id ExecTransaction.revoke := by
  by_cases hpending : ∃ t : ExecTransaction, m.execTransactions[id]? = some t ∧
      t.state.terminal = false
  · obtain ⟨t, ht, hpending⟩ := hpending
    rw [abortExecTransaction_of_pending ht hpending, modify_eq_insert _ ht, modify_eq_insert _ ht]
    simp [ExecTransaction.revoke, hpending]
  · have hterminal : ∀ t : ExecTransaction, m.execTransactions[id]? = some t →
        t.state.terminal = true := by simpa using hpending
    rw [abortExecTransaction_of_not_pending hterminal]
    exact (modify_eq_self _ fun t ht => revokeExec_of_terminal (hterminal t ht)).symm

theorem foldl_abort_frame (l : List Nat) (m : StateManager) :
    l.foldl StateManager.abortTransaction m = { m with
      transactions := (l.foldl StateManager.abortTransaction m).transactions
      processes := (l.foldl StateManager.abortTransaction m).processes } := by
  induction l generalizing m with
  | nil => rfl
  | cons id l ih =>
    rw [List.foldl_cons, ih]
    have hframe : m.abortTransaction id = { m with
        transactions := (m.abortTransaction id).transactions
        processes := (m.abortTransaction id).processes } := by
      unfold StateManager.abortTransaction
      split
      · rfl
      · split <;> rfl
    rw [hframe]

theorem foldl_abortExec_frame (l : List Nat) (m : StateManager) :
    l.foldl StateManager.abortExecTransaction m = { m with
      execTransactions := (l.foldl StateManager.abortExecTransaction m).execTransactions
      retiredPeers := (l.foldl StateManager.abortExecTransaction m).retiredPeers } := by
  induction l generalizing m with
  | nil => rfl
  | cons id l ih =>
    rw [List.foldl_cons, ih]
    have hframe : m.abortExecTransaction id = { m with
        execTransactions := (m.abortExecTransaction id).execTransactions
        retiredPeers := (m.abortExecTransaction id).retiredPeers } := by
      unfold StateManager.abortExecTransaction
      split
      · rfl
      · split <;> rfl
    rw [hframe]

theorem transactions_foldl_abort (l : List Nat) (m : StateManager) (j : Nat) :
    (l.foldl StateManager.abortTransaction m).transactions[j]? =
      if j ∈ l then m.transactions[j]?.map Transaction.revoke else m.transactions[j]? := by
  rw [← get_foldl_modify revoke_revoke,
    List.foldl_hom StateManager.transactions fun m id => (transactions_abortTransaction id).symm]

theorem execs_foldl_abort (l : List Nat) (m : StateManager) (j : Nat) :
    (l.foldl StateManager.abortExecTransaction m).execTransactions[j]? =
      if j ∈ l then m.execTransactions[j]?.map ExecTransaction.revoke
      else m.execTransactions[j]? := by
  rw [← get_foldl_modify revokeExec_revoke, List.foldl_hom StateManager.execTransactions
      fun m id => (execTransactions_abortExecTransaction id).symm]

theorem transactions_abortPendingFor (pid j : Nat) :
    (m.abortPendingFor pid).transactions[j]? = m.transactions[j]?.map fun t =>
      if t.parent = pid ∨ t.ticket.child.pid = pid then t.revoke else t := by
  rw [StateManager.abortPendingFor, transactions_foldl_abort]
  cases hj : m.transactions[j]? with
  | none => simp
  | some t =>
    simp only [mem_selectKeys, hj, Option.some.injEq, exists_eq_left', Option.map_some]
    by_cases htouch : t.parent = pid ∨ t.ticket.child.pid = pid
    · by_cases hterminal : t.state.terminal = true
      · simp [htouch, hterminal, revoke_of_terminal]
      · simp [htouch, hterminal]
    · simp [htouch]

theorem execs_abortPendingExecFor (pid j : Nat) :
    (m.abortPendingExecFor pid).execTransactions[j]? = m.execTransactions[j]?.map fun t =>
      if t.process = pid then t.revoke else t := by
  rw [StateManager.abortPendingExecFor, execs_foldl_abort]
  cases hj : m.execTransactions[j]? with
  | none => simp
  | some t =>
    simp only [mem_selectKeys, hj, Option.some.injEq, exists_eq_left', Option.map_some, beq_iff_eq]
    split <;> rfl

variable {q pid j : Nat}

theorem processes_foldl_abort (l : List Nat) {m : StateManager} {p' : Process}
    (h : (l.foldl StateManager.abortTransaction m).processes[q]? = some p') :
    ∃ p : Process, m.processes[q]? = some p ∧ (p' = p ∨ p' = { p with state := .aborted }) := by
  induction l generalizing m with
  | nil => exact ⟨p', h, .inl rfl⟩
  | cons id l ih =>
    obtain ⟨p₁, hp₁, hstate⟩ := ih h
    unfold StateManager.abortTransaction at hp₁
    split at hp₁
    · exact ⟨p₁, hp₁, hstate⟩
    split at hp₁
    · exact ⟨p₁, hp₁, hstate⟩
    dsimp only at hp₁
    rw [get_modify] at hp₁
    split at hp₁
    · obtain ⟨p, hp, rfl⟩ := Option.map_eq_some_iff.mp hp₁
      exact ⟨p, hp, .inr (or_self_iff.mp hstate)⟩
    · exact ⟨p₁, hp₁, hstate⟩

theorem steps_foldl_abort (he : e.Collects) (l : List Nat) (m : StateManager) :
    Steps e m (l.foldl StateManager.abortTransaction m) := by
  induction l generalizing m with
  | nil => exact .refl
  | cons id l ih =>
    by_cases hpending : ∃ t : Transaction, m.transactions[id]? = some t ∧ t.state.terminal = false
    · obtain ⟨t, ht, hpending⟩ := hpending
      exact .head (.abortFork he ht hpending) (ih _)
    have hterminal : ∀ t : Transaction, m.transactions[id]? = some t →
        t.state.terminal = true := by simpa using hpending
    rw [List.foldl_cons, abortTransaction_of_not_pending hterminal]
    exact ih m

theorem steps_foldl_abortExec (l : List Nat) (m : StateManager) :
    Steps e m (l.foldl StateManager.abortExecTransaction m) := by
  induction l generalizing m with
  | nil => exact .refl
  | cons id l ih =>
    by_cases hpending : ∃ t : ExecTransaction, m.execTransactions[id]? = some t ∧
        t.state.terminal = false
    · obtain ⟨t, ht, hpending⟩ := hpending
      exact .head (.abortExec ht hpending) (ih _)
    have hterminal : ∀ t : ExecTransaction, m.execTransactions[id]? = some t →
        t.state.terminal = true := by simpa using hpending
    rw [List.foldl_cons, abortExecTransaction_of_not_pending hterminal]
    exact ih m

/-! ## Disconnecting -/

variable {client : ClientId}

theorem Event.Ends.collects (h : e.Ends m client) : e.Collects := by
  rcases h with rfl | ⟨c, status, -, rfl⟩ <;> trivial

/-- What the end of a connection aborts. -/
def StateManager.abortOf (m : StateManager) (kind : ClientKind) : StateManager :=
  match kind with
  | .worker pid => (m.abortPendingFor pid).abortPendingExecFor pid
  | .execCandidate _ id => m.abortExecTransaction id
  | _ => m

theorem foldl_abort_eraseClient (l : List Nat) (client : ClientId) (m : StateManager) :
    l.foldl StateManager.abortTransaction (m.eraseClient client) =
      (l.foldl StateManager.abortTransaction m).eraseClient client := by
  refine List.foldl_hom (StateManager.eraseClient · client) fun m id => ?_
  unfold StateManager.abortTransaction
  cases hid : m.transactions[id]? with
  | none => simp only [StateManager.eraseClient, hid]
  | some t =>
    simp only [StateManager.eraseClient, hid]
    split <;> rfl

theorem abortExecTransaction_eraseClient (client : ClientId) (m : StateManager) (id : Nat) :
    (m.eraseClient client).abortExecTransaction id =
      (m.abortExecTransaction id).eraseClient client := by
  unfold StateManager.abortExecTransaction
  cases hid : m.execTransactions[id]? with
  | none => simp only [StateManager.eraseClient, hid]
  | some t =>
    simp only [StateManager.eraseClient, hid]
    split <;> rfl

theorem abortOf_eraseClient (client : ClientId) (kind : ClientKind) (m : StateManager) :
    (m.eraseClient client).abortOf kind = (m.abortOf kind).eraseClient client := by
  cases kind with
  | worker pid =>
    have hforks : (m.eraseClient client).abortPendingFor pid =
        (m.abortPendingFor pid).eraseClient client := foldl_abort_eraseClient _ client m
    rw [StateManager.abortOf, hforks]
    exact List.foldl_hom (StateManager.eraseClient · client)
      fun m id => abortExecTransaction_eraseClient client m id
  | execCandidate pid id => exact abortExecTransaction_eraseClient client m id
  | _ => rfl

theorem releaseReservations_clients (client : ClientId) :
    (m.releaseReservations client).clients = m.clients := rfl

theorem disconnect_eq (h : Coherent m) {c : Client} (hclient : m.clients[client]? = some c) :
    m.disconnect client = ((((m.releaseReservations client).abortOf c.kind).eraseClient
      client)).collectObjects := by
  rw [← abortOf_eraseClient]
  unfold StateManager.disconnect
  simp only [releaseReservations_clients, hclient]
  congr 1
  obtain ⟨peer, kind⟩ := c
  cases kind with
  | worker pid =>
    have howner : (m.releaseReservations client).peerOf pid = some peer := by
      rw [peerOf_releaseReservations]
      exact (h.authority.workerOwns hclient).1
    obtain ⟨p, hp, rfl⟩ := column_eq_some.mp howner
    simp only [hp, Option.any_some, beq_self_eq_true, if_true]
    rfl
  | _ => rfl

theorem abortOf_steps (he : e.Collects) (kind : ClientKind) (m : StateManager) :
    Steps e m (m.abortOf kind) := by
  cases kind with
  | worker pid => exact (steps_foldl_abort he _ m).trans (steps_foldl_abortExec _ _)
  | execCandidate pid id => exact steps_foldl_abortExec [id] m
  | _ => exact .refl

theorem abortPendingFor_clients (pid : Nat) : (m.abortPendingFor pid).clients = m.clients := by
  rw [StateManager.abortPendingFor, foldl_abort_frame]

theorem abortPendingExecFor_clients (pid : Nat) :
    (m.abortPendingExecFor pid).clients = m.clients := by
  rw [StateManager.abortPendingExecFor, foldl_abortExec_frame]

theorem abortPendingExecFor_transactions (pid : Nat) :
    (m.abortPendingExecFor pid).transactions = m.transactions := by
  rw [StateManager.abortPendingExecFor, foldl_abortExec_frame]

theorem abortPendingExecFor_processes (pid : Nat) :
    (m.abortPendingExecFor pid).processes = m.processes := by
  rw [StateManager.abortPendingExecFor, foldl_abortExec_frame]

theorem abortExecTransaction_frame (id : Nat) : m.abortExecTransaction id = { m with
    execTransactions := (m.abortExecTransaction id).execTransactions
    retiredPeers := (m.abortExecTransaction id).retiredPeers } :=
  foldl_abortExec_frame [id] m

theorem abortOf_clients (kind : ClientKind) (m : StateManager) :
    (m.abortOf kind).clients = m.clients := by
  cases kind with
  | worker pid =>
    exact (abortPendingExecFor_clients pid).trans (abortPendingFor_clients pid)
  | execCandidate pid id =>
    rw [StateManager.abortOf, abortExecTransaction_frame]
  | _ => rfl

theorem processes_abortOf {kind : ClientKind} {p' : Process}
    (h : (m.abortOf kind).processes[q]? = some p') :
    ∃ p : Process, m.processes[q]? = some p ∧ (p' = p ∨ p' = { p with state := .aborted }) := by
  cases kind with
  | worker pid =>
    have h' : ((m.abortPendingFor pid).abortPendingExecFor pid).processes[q]? = some p' := h
    rw [abortPendingExecFor_processes] at h'
    exact processes_foldl_abort _ h'
  | execCandidate pid id =>
    rw [StateManager.abortOf, abortExecTransaction_frame] at h
    exact ⟨p', h, .inl rfl⟩
  | _ => exact ⟨p', h, .inl rfl⟩

theorem abortOf_forks {u : Transaction} (hu : (m.abortOf (.worker pid)).transactions[j]? = some u)
    (hpending : u.state.terminal = false) : u.parent ≠ pid ∧ u.ticket.child.pid ≠ pid := by
  have hu' : ((m.abortPendingFor pid).abortPendingExecFor pid).transactions[j]? = some u := hu
  rw [abortPendingExecFor_transactions, transactions_abortPendingFor] at hu'
  obtain ⟨t, ht, rfl⟩ := Option.map_eq_some_iff.mp hu'
  by_cases htouch : t.parent = pid ∨ t.ticket.child.pid = pid
  · rw [if_pos htouch, revoke_terminal] at hpending
    cases hpending
  · rw [if_neg htouch]
    exact not_or.mp htouch

theorem abortOf_execs {u : ExecTransaction}
    (hu : (m.abortOf (.worker pid)).execTransactions[j]? = some u) (hprocess : u.process = pid) :
    u.state.terminal = true := by
  have hu' : ((m.abortPendingFor pid).abortPendingExecFor pid).execTransactions[j]? = some u :=
    hu
  rw [execs_abortPendingExecFor] at hu'
  obtain ⟨t, ht, rfl⟩ := Option.map_eq_some_iff.mp hu'
  split
  · exact revokeExec_terminal t
  · next hne => rw [if_neg hne] at hprocess; exact absurd hprocess hne

theorem abortOf_candidate {id : Nat} {u : ExecTransaction}
    (hu : (m.abortOf (.execCandidate pid id)).execTransactions[id]? = some u) :
    u.state.terminal = true := by
  have hu' : ([id].foldl StateManager.abortExecTransaction m).execTransactions[id]? = some u := hu
  rw [execs_foldl_abort, if_pos List.mem_cons_self] at hu'
  obtain ⟨t, ht, rfl⟩ := Option.map_eq_some_iff.mp hu'
  exact revokeExec_terminal t

theorem disconnect_steps (h : Coherent m) (hends : e.Ends m client) :
    Steps e m (m.disconnect client) := by
  have hrelease : Change e m (m.releaseReservations client) := .release hends
  cases hclient : m.clients[client]? with
  | none =>
    have heq : m.disconnect client = m.releaseReservations client := by
      unfold StateManager.disconnect
      simp only [releaseReservations_clients, hclient]
    rw [heq]
    exact .single hrelease
  | some c =>
    rw [disconnect_eq h hclient]
    obtain ⟨peer, kind⟩ := c
    have habort := abortOf_steps hends.collects kind (m.releaseReservations client)
    have hcoherent := (h.change hrelease).steps habort
    have hclients := abortOf_clients kind (m.releaseReservations client)
    rw [releaseReservations_clients] at hclients
    refine (Relation.ReflTransGen.head hrelease habort).tail ?_ |>.tail .collect
    have hread : ((m.releaseReservations client).abortOf kind).clients[client]? =
        some ⟨peer, kind⟩ := by rw [hclients, hclient]
    refine .dropClient ?_ hread (fun q p' hp' => ?_) (fun j u hu hpending => ?_)
      fun j u hu hpending => ?_
    · rcases hends with rfl | ⟨c, status, hc, rfl⟩
      · exact .inl rfl
      · exact .inr ⟨c, status, by rw [hclients, hc], rfl⟩
    · obtain ⟨p₁, hp₁, hsame⟩ := processes_abortOf hp'
      have hprewarm : p'.prewarm = p₁.prewarm := by rcases hsame with rfl | rfl <;> rfl
      rw [hprewarm]
      rw [StateManager.releaseReservations, get_map] at hp₁
      obtain ⟨p, hp, rfl⟩ := Option.map_eq_some_iff.mp hp₁
      split
      · exact nofun
      · next hne => exact hne
    · -- The owner of a pending exec is its worker, and its candidate has a connection.
      constructor
      · rintro rfl
        have howner := hcoherent.authority.pendingOwner hu hpending
        rw [hread] at howner
        cases howner
        rw [abortOf_execs hu rfl] at hpending
        cases hpending
      · intro hcandidate
        have howner := hcoherent.authority.pendingCandidate hu hpending hcandidate
        rw [hread] at howner
        cases howner
        rw [abortOf_candidate hu] at hpending
        cases hpending
    · rintro rfl
      exact (abortOf_forks hu hpending).1 rfl

end Kinakaze.Manager
