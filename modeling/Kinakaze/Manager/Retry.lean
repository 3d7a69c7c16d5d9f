import Kinakaze.Manager.Ownership

/-!
# Repeating a fork request

A worker that has not heard the answer to a fork request repeats it.  The
reservation is filed under the worker's request key, so the answer can be found
again, for as long as the record is not acknowledged and the worker's connection
still speaks for the process.  A request that names the logical parent is checked
against the current one before the key is looked up.
-/

namespace Kinakaze.Manager

open Kinakaze.Library Kinakaze.Protocol

variable {m m' : StateManager} {e : Event} {client : ClientId} {peer : PeerIdentity}
  {pid key requested : Nat} {ticket : ForkTicket}

/-! ## The record of a fork -/

/-- A ticket without the logical parent of its child, which may change. -/
def unparented (ticket : ForkTicket) : ForkTicket :=
  { ticket with child.parentPid := 0 }

/-- What nothing changes about a fork transaction. -/
def Transaction.issue (t : Transaction) : Nat × Nat × ForkTicket :=
  (t.parent, t.requestedParent, unparented t.ticket)

def StateManager.forkKey (m : StateManager) (pid key : Nat) : Option Nat :=
  m.processes[pid]?.bind fun p => p.requestKeys[key]?

/-- The fork `ticket` is on record, under the key it was requested with. -/
structure StateManager.Filed (m : StateManager) (pid key requested : Nat)
    (ticket : ForkTicket) : Prop where
  key : m.forkKey pid key = some ticket.transaction
  record : column m.transactions Transaction.issue ticket.transaction =
    some (pid, requested, unparented ticket)

theorem forkKey_modify {q : Nat} {f : Process → Process} (h : m'.processes = m.processes.modify q f)
    (hf : ∀ p : Process, (f p).requestKeys = p.requestKeys) (pid key : Nat) :
    m'.forkKey pid key = m.forkKey pid key := by
  rw [StateManager.forkKey, h, get_modify]
  split
  · rw [StateManager.forkKey]
    cases m.processes[pid]? with
    | none => rfl
    | some p => exact congrArg (·[key]?) (hf p)
  · rfl

variable {p : Process}

theorem forkKey_insert_new {q : Nat} (h : m'.processes = m.processes.insert q p)
    (hq : m.processes[q]? = none)
    (hkey : m.forkKey pid key ≠ none) : m'.forkKey pid key = m.forkKey pid key := by
  rw [StateManager.forkKey, h, get_insert, if_neg]
  · rfl
  · rintro rfl
    rw [StateManager.forkKey, hq] at hkey
    exact hkey rfl

theorem StateManager.Filed.congr (h : m.Filed pid key requested ticket)
    (hkey : m'.forkKey pid key = m.forkKey pid key)
    (hrecord : column m'.transactions Transaction.issue = column m.transactions Transaction.issue) :
    m'.Filed pid key requested ticket :=
  ⟨hkey.trans h.key, hrecord ▸ h.record⟩

theorem StateManager.Filed.transaction (h : m.Filed pid key requested ticket) :
    ∃ t : Transaction, m.transactions[ticket.transaction]? = some t ∧ t.parent = pid ∧
      t.requestedParent = requested ∧ unparented t.ticket = unparented ticket := by
  obtain ⟨t, ht, hissue⟩ := column_eq_some.mp h.record
  simp only [Transaction.issue, Prod.mk.injEq] at hissue
  exact ⟨t, ht, hissue⟩

theorem StateManager.Filed.change (h : m.Filed pid key requested ticket) (hc : Coherent m)
    (hchange : Change e m m') (hclient : m.clients[client]? = some ⟨peer, .worker pid⟩)
    (hclient' : m'.clients[client]? = some ⟨peer, .worker pid⟩)
    (hnoack : ∀ c : ClientId, e ≠ .acknowledge c ticket.transaction) :
    m'.Filed pid key requested ticket := by
  have hknown : m.forkKey pid key ≠ none := by rw [h.key]; exact Option.some_ne_none _
  obtain ⟨t₀, ht₀, hparent₀, -⟩ := h.transaction
  have hc' := hc.change hchange
  cases hchange with
  | connectRoot =>
    exact h.congr (forkKey_insert_new rfl hc.numbering.process_fresh hknown) rfl
  | @connectFork _ x id t snapshot hunknown htarget hfresh hroom ht hprepared =>
    have hphase := hc.phases.phase ht
    simp only [Transaction.Phase, hprepared] at hphase
    exact h.congr (forkKey_insert_new rfl (column_eq_none.mp hphase.2) hknown)
      (column_modify_eq _ _ fun _ => rfl)
  | park | bindLaunch | addModule | addState | addExec | forgetExec =>
    exact h.congr (forkKey_modify rfl (by intro _; rfl) _ _) rfl
  | @reserveFork _ i q requestKey parentPid next p token objects states howner hactive hkey =>
    refine ⟨?_, ?_⟩
    · change ((m.processes.modify q _)[pid]?).bind _ = _
      rw [get_modify]
      split
      · next heq =>
        subst heq
        have hold := h.key
        rw [StateManager.forkKey, howner.process] at hold
        rw [howner.process, Option.map_some, Option.bind_some, get_insert, if_neg]
        · exact hold
        · rintro rfl
          cases hkey.symm.trans hold
      · exact h.key
    · refine (column_insert _ _ _ _ _).trans ?_
      rw [if_neg (Nat.ne_of_gt (hc.numbering.fork _ t₀ ht₀).1)]
      exact h.record
  | forkReady => exact h.congr rfl (column_modify_eq _ _ fun _ => rfl)
  | commitFork =>
    exact h.congr (forkKey_modify rfl (by intro _; rfl) _ _) (column_modify_eq _ _ fun _ => rfl)
  | abortFork hevent ht hpending =>
    rw [abortTransaction_of_pending ht hpending]
    exact h.congr (forkKey_modify rfl (by intro _; rfl) _ _) (column_modify_eq _ _ fun _ => rfl)
  | abortExec ht hpending =>
    rw [abortExecTransaction_of_pending ht hpending]
    exact h.congr rfl rfl
  | @forgetFork _ c q id p t hevent howner ht hparent =>
    have hne : id ≠ ticket.transaction := by
      rintro rfl
      exact hnoack c hevent
    refine ⟨?_, ?_⟩
    · change ((m.processes.modify q _)[pid]?).bind _ = _
      rw [get_modify]
      split
      · have hold := h.key
        rw [StateManager.forkKey] at hold
        cases hp : m.processes[pid]? with
        | none => rw [hp] at hold; cases hold
        | some p =>
          rw [hp] at hold
          exact get_filter_eq_some.mpr ⟨hold, by simpa using Ne.symm hne⟩
      · exact h.key
    · refine (column_erase _ _ _ _).trans ?_
      rw [if_neg hne]
      exact h.record
  | @release i =>
    refine h.congr ?_ rfl
    change (m.processes.map _)[pid]?.bind _ = _
    rw [get_map, StateManager.forkKey]
    cases m.processes[pid]? with
    | none => rfl
    | some p =>
      change (if p.prewarm = .poolReserved i then _ else p).requestKeys[key]? = _
      split <;> rfl
  | @promote id t status hevent ht hretiring =>
    -- Were the image of `pid` replaced, its connection would not speak for it any more.
    have hother : t.process ≠ pid := by
      rintro rfl
      have howner := (hc'.authority.workerOwns hclient').1
      rw [peerOf_promote, if_pos rfl, hc.authority.execOwner ht] at howner
      have hpeer := (hc.authority.workerOwns hclient).1
      rw [← Option.some.inj howner] at hpeer
      exact hc.authority.targetUnowned ht hpeer
    refine ⟨?_, ?_⟩
    · change ((m.processes.modify t.process _)[pid]?).bind _ = _
      rw [get_modify, if_neg hother]
      exact h.key
    · refine column_eq_some.mpr ⟨t₀, get_filter_eq_some.mpr ⟨ht₀, ?_⟩, ?_⟩
      · simp [hparent₀, Ne.symm hother]
      · have hrecord := h.record
        rw [column_of_get _ ht₀] at hrecord
        exact Option.some.inj hrecord
  | @endProcess q p status order records hevent hp hfresh =>
    have hother : q ≠ pid := by
      rintro rfl
      have hpeer := (hc.authority.workerOwns hclient).1
      rw [StateManager.peerOf, column_of_get _ hp] at hpeer
      exact hfresh client _ hclient (Option.some.inj hpeer).symm
    refine ⟨?_, ?_⟩
    · have hold := h.key
      rw [StateManager.forkKey] at hold
      obtain ⟨p₀, hp₀, hkey⟩ := Option.bind_eq_some_iff.mp hold
      have hkept : (m.endProcess q order records).processes[pid]? =
          some { p₀ with identity := reparent p₀.identity q } :=
        (processes_endProcess m).mpr ⟨Ne.symm hother, p₀, hp₀, rfl⟩
      rw [StateManager.forkKey, hkept]
      exact hkey
    · refine column_eq_some.mpr ⟨_, (transactions_endProcess m).mpr
        ⟨t₀, ht₀, by rw [hparent₀]; exact Ne.symm hother, rfl⟩, ?_⟩
      have hrecord := h.record
      rw [column_of_get _ ht₀] at hrecord
      rw [← Option.some.inj hrecord]
      simp only [Transaction.issue, unparented, reparent]
      split <;> rfl
  | _ => exact h.congr rfl rfl

/-! ## The two requests -/

/-- A fork request with its key, for a child of the caller or, like `CLONE_PARENT`,
for a child of the caller's own parent. -/
def preparation (key : Nat) : Option Nat → Request
  | none => .prepareFork key
  | some parentPid => .prepareForkWithParent key parentPid

/-- The logical parent the request asks for. -/
def requestedParent (pid : Nat) (parent : Option Nat) : Nat := parent.getD pid

theorem prepareFork_filed (h : Coherent m) (ho : m.Owns client pid p) (entropy : Entropy) :
    wp (prepareFork pid key requested entropy)
      (fun reply m' => m'.clients = m.clients ∧ m'.nextClient = m.nextClient ∧
        ∀ ticket : ForkTicket, reply = .forkPrepared ticket →
          m'.Filed pid key requested ticket) (Rejected m) m := by
  refine wp_read (wp_unwrap ho.process ?_)
  split
  · next id hkey =>
    obtain ⟨t, ht, hparent⟩ := h.fork_of_key ho.process hkey
    refine wp_unwrap ht (wp_check fun hsame => wp_check fun _ => ⟨rfl, rfl, fun ticket heq => ?_⟩)
    obtain rfl := (Reply.forkPrepared.inj heq)
    have hid : t.ticket.transaction = id := (h.numbering.fork id t ht).2.1
    refine ⟨?_, ?_⟩
    · rw [StateManager.forkKey, ho.process, hid]
      exact hkey
    · rw [hid, column_of_get _ ht, Transaction.issue, hparent, not_not.mp hsame]
  refine wp_check fun _ => wp_check fun _ => wp_checkProcessCapacity fun _ =>
    wp_storedObjects h ho fun _ _ => wp_checkObjectCapacity fun _ => wp_secureTicket fun token =>
      wp_allocateIdentity fun _ => ?_
  have hdefined : ∀ {key : StateKey} {id : Nat}, p.snapshot.states[key]? = some id →
      ∃ o : Object, m.objects[id]? = some o := fun hstate => h.object_of_key ho.process hstate
  rw [wp_bind]
  refine wp_mono (copyStates_spec hdefined (m := { m with nextPid := m.nextPid + 1 })
    (.start hdefined h.numbering.object)) (fun states m₂ hdone => ?_) fun _ _ hf => hf.elim
  obtain ⟨hframe, -⟩ := hdone
  rw [hframe]
  refine ⟨rfl, rfl, fun ticket heq => ?_⟩
  obtain rfl := (Reply.forkPrepared.inj heq)
  refine ⟨?_, ?_⟩
  · change ((m.processes.modify pid _)[pid]?).bind _ = _
    rw [get_modify, if_pos rfl, ho.process, Option.map_some, Option.bind_some, get_insert,
      if_pos rfl]
  · refine (column_insert _ _ _ _ _).trans ?_
    rw [if_pos rfl]
    rfl

/-- An answered fork request came from the worker of a process, and is on record. -/
theorem handle_preparation (h : Coherent m) (parent : Option Nat) (entropy : Entropy) :
    wp (handle client (preparation key parent) entropy)
      (fun reply m' => ∃ (peer : PeerIdentity) (pid : Nat),
        m'.clients[client]? = some ⟨peer, .worker pid⟩ ∧ client < m'.nextClient ∧
          ∀ ticket : ForkTicket, reply = .forkPrepared ticket →
            m'.Filed pid key (requestedParent pid parent) ticket ∧
              (parent ≠ none → pid ≠ 1)) (Rejected m) m := by
  refine wp_read (wp_lookup fun c hclient => wp_check fun hhelper => wp_check fun _ =>
    wp_check fun _ => ?_)
  refine (wp_ite _ _ _).mpr ⟨fun _ => ?_, fun hcontrol => wp_check fun _ => ?_⟩
  · cases parent <;> exact wp_reject _ _
  obtain ⟨peer, kind⟩ := c
  cases kind with
  | worker pid =>
    obtain ⟨p, ho, rfl⟩ := h.owns hclient
    have hbelow : client < m.nextClient := (h.numbering.client _ _ hclient).1
    refine wp_read (wp_lookup fun q hq => wp_check fun _ => ?_)
    refine (wp_ite _ _ _).mpr ⟨fun heq => (by cases parent <;> cases heq),
      fun _ => wp_check fun _ => wp_check fun _ => ?_⟩
    cases parent with
    | none =>
      refine wp_read (wp_mono (prepareFork_filed h ho entropy) (fun reply m' hdone => ?_)
        fun _ _ hf => hf)
      obtain ⟨hclients, hnext, hfiled⟩ := hdone
      exact ⟨p.peer, pid, by rw [hclients]; exact hclient, by rw [hnext]; exact hbelow,
        fun ticket heq => ⟨hfiled ticket heq, fun hno => absurd rfl hno⟩⟩
    | some parentPid =>
      refine wp_read (wp_check fun hone =>
        wp_read (wp_unwrap ho.process (wp_check fun _ => ?_)))
      refine wp_mono (prepareFork_filed h ho entropy) (fun reply m' hdone => ?_) fun _ _ hf => hf
      obtain ⟨hclients, hnext, hfiled⟩ := hdone
      exact ⟨p.peer, pid, by rw [hclients]; exact hclient, by rw [hnext]; exact hbelow,
        fun ticket heq => ⟨hfiled ticket heq, fun _ => hone⟩⟩
  | execCandidate pid id =>
    refine wp_read (wp_lookup fun t _ => wp_check fun _ => wp_check fun _ =>
      wp_lookup fun p _ => ?_)
    cases parent <;> exact wp_reject _ _
  | retired pid id => cases parent <;> exact wp_reject _ _
  | controller | launcher => exact absurd rfl hcontrol
  | helper => exact absurd rfl hhelper

/-! ## The record over a run -/

/-- The call is an acknowledgement of `id` that succeeds. -/
def Event.Acknowledges (e : Event) (m : StateManager) (id : Nat) : Prop :=
  (∃ c : ClientId, e = .acknowledge c id) ∧ outcome m e = .ok .done

/-- As long as the connection speaks for the process, the fork is on record. -/
structure StateManager.Serves (m : StateManager) (client : ClientId) (peer : PeerIdentity)
    (pid key requested : Nat) (ticket : ForkTicket) : Prop where
  old : client < m.nextClient
  served : ∀ c : Client, m.clients[client]? = some c →
    (∃ (x : PeerIdentity) (q id : Nat), c = ⟨x, .retired q id⟩) ∨
      c = ⟨peer, .worker pid⟩ ∧ m.Filed pid key requested ticket

section

variable (h : m.Serves client peer pid key requested ticket)
include h

theorem StateManager.Serves.change (hc : Coherent m) (hchange : Change e m m')
    (hnoack : ∀ c : ClientId, e ≠ .acknowledge c ticket.transaction) :
    m'.Serves client peer pid key requested ticket := by
  refine ⟨Nat.lt_of_lt_of_le h.old (nextClient_change hchange), fun c hclient' => ?_⟩
  rcases client_change hc hchange h.old hclient' with hclient | hretired | ⟨x, q, id, hcandidate⟩
  · rcases h.served c hclient with hretired | ⟨rfl, hfiled⟩
    · exact .inl hretired
    · exact .inr ⟨rfl, hfiled.change hc hchange hclient hclient' hnoack⟩
  · exact .inl hretired
  · -- A worker's connection is no exec candidate.
    rcases h.served _ hcandidate with ⟨x, q, id, heq⟩ | ⟨heq, -⟩ <;> cases heq

theorem StateManager.Serves.effects (hc : Coherent m) (hsteps : Steps e m m')
    (hnoack : ∀ c : ClientId, e ≠ .acknowledge c ticket.transaction) :
    m'.Serves client peer pid key requested ticket :=
  (hsteps.preserves (P := fun m => Coherent m ∧ m.Serves client peer pid key requested ticket)
    (fun _ _ hm hchange => ⟨hm.1.change hchange, hm.2.change hm.1 hchange hnoack⟩) ⟨hc, h⟩).2

theorem StateManager.Serves.step
    (hsound : Sound m) (hkept : ¬ e.Acknowledges m ticket.transaction) :
    (Manager.step m e).Serves client peer pid key requested ticket := by
  by_cases hack : ∃ c : ClientId, e = .acknowledge c ticket.transaction
  · obtain ⟨c, rfl⟩ := hack
    cases houtcome : outcome m (.acknowledge c ticket.transaction) with
    | error fault =>
      rw [(hsound.outcome_error houtcome).2]
      exact h
    | ok response =>
      obtain ⟨-, -, rfl, -⟩ := outcome_ok (e := .acknowledge c ticket.transaction)
        (fun _ => .done) rfl (acknowledge_atomic c hsound.coherent _) houtcome
      exact absurd ⟨⟨c, rfl⟩, houtcome⟩ hkept
  · have hnoack : ∀ c : ClientId, e ≠ .acknowledge c ticket.transaction :=
      fun c heq => hack ⟨c, heq⟩
    have htransition := hsound.transition e
    generalize Manager.step m e = m' at htransition ⊢
    cases htransition with
    | effects hsteps => exact h.effects hsound.coherent hsteps hnoack
    | completed ht hretiring hexit hfirst hrest =>
      exact (h.effects hsound.coherent hfirst hnoack).effects (hsound.coherent.steps hfirst)
        hrest nofun

theorem StateManager.Serves.run (hsound : Sound m) {inputs : List Event}
    (hkept : EveryStep Manager.step (fun m e => ¬ e.Acknowledges m ticket.transaction) m inputs) :
    (Library.run Manager.step m inputs).Serves client peer pid key requested ticket :=
  (run_preserves (P := fun m => Sound m ∧ m.Serves client peer pid key requested ticket)
    (fun _ e hm hok => ⟨hm.1.step e, hm.2.step hm.1 hok⟩) ⟨hsound, h⟩ hkept).2

end

/-! ## The repetition -/

/-- The request is answered with the ticket's transaction, token and child, and
changes nothing. -/
def StateManager.Repeats (m : StateManager) (client : ClientId) (request : Request)
    (ticket : ForkTicket) : Prop :=
  ∀ entropy : Entropy, ∃ again : ForkTicket,
    outcome m (.handle client request entropy) = .ok (.replied (.forkPrepared again)) ∧
      again.transaction = ticket.transaction ∧ again.token = ticket.token ∧
      again.child.pid = ticket.child.pid ∧ step m (.handle client request entropy) = m

theorem exec_prepareFork_filed (h : m.Filed pid key requested ticket)
    (hlive : ∀ t : Transaction, m.transactions[ticket.transaction]? = some t →
      t.state ≠ .aborted) (entropy : Entropy) :
    ∃ t : Transaction, unparented t.ticket = unparented ticket ∧
      exec (prepareFork pid key requested entropy) m = (.ok (.forkPrepared t.ticket), m) := by
  obtain ⟨t, ht, hparent, hrequested, hissue⟩ := h.transaction
  obtain ⟨p, hp, hkey⟩ := Option.bind_eq_some_iff.mp h.key
  refine ⟨t, hissue, ?_⟩
  simp [prepareFork, exec_bind, unwrap, require, failIf, hp, hkey, ht, hrequested, hlive t ht,
    -bind_pure_comp]

theorem exec_handle_preparation (ho : m.Owns client pid p) (hactive : p.state = .active)
    (parent : Option Nat) (entropy : Entropy) :
    exec (handle client (preparation key parent) entropy) m = match parent with
      | none => exec (prepareFork pid key pid entropy) m
      | some parentPid => exec (prepareForkWithParent pid key parentPid entropy) m := by
  cases parent <;>
    simp [handle, handleWorker, handleOwner, preparation, exec_bind, require, failIf,
      ho.connected, ho.process, hactive, isHello, controlOnly, ClientKind.isControl,
      ProcessState.isPending, -bind_pure_comp]

/-- Once a worker's fork request was answered, repeating it gives the same answer
exactly when the logical parent it names, if any, is still that of the process. -/
theorem retry_iff (h : ReachableState m) {parent : Option Nat} {entropy : Entropy}
    (hfirst : outcome m (.handle client (preparation key parent) entropy) =
      .ok (.replied (.forkPrepared ticket))) {inputs : List Event}
    (hkept : EveryStep step (fun m e => ¬ e.Acknowledges m ticket.transaction)
      (step m (.handle client (preparation key parent) entropy)) inputs) {p : Process}
    (howns : (run step (step m (.handle client (preparation key parent) entropy)) inputs).Owns
      client pid p)
    (hlive : ∀ t : Transaction, (run step (step m (.handle client (preparation key parent) entropy))
        inputs).transactions[ticket.transaction]? = some t → t.state ≠ .aborted) :
    (run step (step m (.handle client (preparation key parent) entropy)) inputs).Repeats client
        (preparation key parent) ticket ↔
      ∀ parentPid : Nat, parent = some parentPid → p.identity.parentPid = parentPid := by
  have hsound := h.sound
  obtain ⟨reply, -, hreply, peer, q, hclient, hold, hfiled⟩ :=
    outcome_ok (e := .handle client (preparation key parent) entropy) .replied rfl
      (handle_preparation hsound.coherent parent entropy) hfirst
  have hserves : (step m (.handle client (preparation key parent) entropy)).Serves client peer q
      key (requestedParent q parent) ticket :=
    ⟨hold, fun c hc => .inr ⟨Option.some.inj (hc.symm.trans hclient),
      (hfiled ticket (Response.replied.inj hreply.symm)).1⟩⟩
  have hone := (hfiled ticket (Response.replied.inj hreply.symm)).2
  have hsound' := hsound.step (.handle client (preparation key parent) entropy)
  replace hserves := hserves.run hsound' hkept
  have hcoherent := (hsound'.run inputs).coherent
  generalize run step (step m (.handle client (preparation key parent) entropy)) inputs = m' at *
  rcases hserves.served _ howns.connected with ⟨x, r, id, heq⟩ | ⟨heq, hrecord⟩
  · cases heq
  obtain rfl : q = pid := by cases heq; rfl
  -- The parent of a fork on record is active.
  have hactive : p.state = .active := by
    obtain ⟨t, ht, hparent, -⟩ := hrecord.transaction
    have hstate := hcoherent.phases.parentActive ht
    rw [hparent, StateManager.stateOf, column_of_get _ howns.process] at hstate
    exact Option.some.inj hstate
  have hanswer : ∀ entropy : Entropy, (∃ t : Transaction, unparented t.ticket = unparented ticket ∧
        exec (handle client (preparation key parent) entropy) m' =
          (.ok (.forkPrepared t.ticket), m')) → ∃ again : ForkTicket,
      outcome m' (.handle client (preparation key parent) entropy) =
          .ok (.replied (.forkPrepared again)) ∧
        again.transaction = ticket.transaction ∧ again.token = ticket.token ∧
        again.child.pid = ticket.child.pid ∧
        step m' (.handle client (preparation key parent) entropy) = m' := by
    rintro entropy ⟨t, hissue, hrun⟩
    simp only [unparented, ForkTicket.mk.injEq, ProcessIdentity.mk.injEq] at hissue
    refine ⟨t.ticket, ?_, hissue.1, hissue.2.1, hissue.2.2.2.1, ?_⟩
    · simp only [outcome, Event.call, exec_bind, hrun, exec_pure]
    · simp only [step, Event.call, exec_bind, hrun, exec_pure]
  cases parent with
  | none =>
    refine iff_of_true (fun entropy => hanswer entropy ?_) fun _ h => by cases h
    rw [exec_handle_preparation howns hactive]
    exact exec_prepareFork_filed hrecord hlive entropy
  | some parentPid =>
    constructor
    · intro hrepeats q hq
      obtain rfl := Option.some.inj hq
      obtain ⟨again, hok, -⟩ := hrepeats none
      by_contra hother
      simp [outcome, Event.call, exec_bind, exec_handle_preparation howns hactive,
        prepareForkWithParent, failIf, unwrap, require, howns.process, hother, hone,
        -bind_pure_comp] at hok
    · intro hparent entropy
      refine hanswer entropy ?_
      obtain ⟨t, hissue, hrun⟩ := exec_prepareFork_filed hrecord hlive entropy
      refine ⟨t, hissue, ?_⟩
      rw [exec_handle_preparation howns hactive]
      simpa [prepareForkWithParent, requestedParent, exec_bind, failIf, unwrap, require,
        howns.process, hone,
        hparent parentPid rfl, -bind_pure_comp] using hrun

/-! ## A parent that exits -/

/-- Process 2 asks for a sibling, and then its parent exits. -/
def orphanRequest : Event := .handle 2 (preparation 7 (some 1)) (some (Vector.replicate 32 1))

def orphanManager : StateManager :=
  run step (step (run step smallManager smallFamily) orphanRequest) [.processExited ⟨10, 1⟩ 0]

def orphanTicket : ForkTicket :=
  ⟨2, String.ofList ((List.replicate 32 ['0', '1']).flatten), ⟨1, 3, 1, 1⟩⟩

theorem orphan_kept : EveryStep step (fun m e => ¬ e.Acknowledges m 2)
    (step (run step smallManager smallFamily) orphanRequest) [.processExited ⟨10, 1⟩ 0] :=
  ⟨fun ⟨⟨_, hc⟩, _⟩ => (nomatch hc), trivial⟩

theorem orphan_answered : outcome (run step smallManager smallFamily) orphanRequest =
    .ok (.replied (.forkPrepared orphanTicket)) := by
  decide +kernel

theorem orphan_owns : ∃ p : Process, orphanManager.Owns 2 2 p := by
  have hreachable : ReachableState orphanManager :=
    ((smallManager_reaches smallFamily).next orphanRequest).run step _
  have hclient : orphanManager.clients[2]? = some ⟨⟨11, 1⟩, .worker 2⟩ := by decide +kernel
  obtain ⟨p, ho, -⟩ := hreachable.sound.coherent.owns hclient
  exact ⟨p, ho⟩

theorem orphan_live (t : Transaction) (ht : orphanManager.transactions[2]? = some t) :
    t.state ≠ .aborted := by
  have hstate : column orphanManager.transactions Transaction.state 2 = some .prepared := by
    decide +kernel
  rw [column_of_get _ ht] at hstate
  rw [Option.some.inj hstate]
  exact nofun

theorem retry_iff_orphan : ∃ p : Process, orphanManager.Owns 2 2 p ∧
    (orphanManager.Repeats 2 (preparation 7 (some 1)) orphanTicket ↔
      ∀ parentPid : Nat, some 1 = some parentPid → p.identity.parentPid = parentPid) := by
  obtain ⟨p, howns⟩ := orphan_owns
  exact ⟨p, howns, retry_iff (smallManager_reaches smallFamily) orphan_answered orphan_kept
    howns orphan_live⟩

/-- The request was answered, its record is neither aborted nor acknowledged, the
process is still its worker's, and the repeated request is refused. -/
theorem orphan_refused : ReachableState (run step smallManager smallFamily) ∧
    outcome (run step smallManager smallFamily) orphanRequest =
      .ok (.replied (.forkPrepared orphanTicket)) ∧
    EveryStep step (fun m e => ¬ e.Acknowledges m 2)
      (step (run step smallManager smallFamily) orphanRequest) [.processExited ⟨10, 1⟩ 0] ∧
    (∃ p : Process, orphanManager.Owns 2 2 p) ∧
    (∀ t : Transaction, orphanManager.transactions[2]? = some t → t.state ≠ .aborted) ∧
    ¬ orphanManager.Repeats 2 (preparation 7 (some 1)) orphanTicket := by
  refine ⟨smallManager_reaches smallFamily, orphan_answered, orphan_kept, orphan_owns,
    orphan_live, fun hrepeats => ?_⟩
  obtain ⟨again, hok, -⟩ := hrepeats none
  have hrefused : outcome orphanManager (.handle 2 (preparation 7 (some 1)) none) =
      .error (error .unauthorized "CLONE_PARENT must retain the caller's parent") := by
    decide +kernel
  rw [hrefused] at hok
  cases hok

end Kinakaze.Manager
