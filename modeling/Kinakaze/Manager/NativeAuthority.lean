import Kinakaze.Manager.Ownership

/-!
# One native authority for each process

The requests that read and change the state of a Linux process are served to
its worker only, and a process has one worker.  Between the commit of an exec
and the native exit of the image it replaces the process has none; after that
exit the only candidate is the replacement the exec has adopted.
-/

namespace Kinakaze.Manager

open Kinakaze.Library Kinakaze.Protocol

variable {m m' : StateManager} {e : Event} {client i j : ClientId} {pid : Nat}

/-! ## Requests of a guest -/

/-- The requests that act with the authority of a process. -/
def guestRequest : Request → Bool
  | .readState _ _ | .writeState _ _ _ | .defineState _ _ _ _ | .prepareFork _
  | .prepareForkWithParent _ _ | .prepareExec _ _ _ => true
  | _ => false

/-- The process a connection was opened for. -/
def ClientKind.process : ClientKind → Option Nat
  | .worker pid | .execCandidate pid _ | .retired pid _ => some pid
  | .helper | .controller | .launcher => none

/-- Some request of the connection with the authority of process `pid` succeeds. -/
def Authorized (m : StateManager) (client : ClientId) (pid : Nat) : Prop :=
  ∃ (c : Client) (request : Request) (entropy : Entropy) (response : Response),
    m.clients[client]? = some c ∧ c.kind.process = some pid ∧ guestRequest request = true ∧
      outcome m (.handle client request entropy) = .ok response

variable {response : Response}

theorem guest_is_worker {c : Client} {request : Request} {entropy : Entropy}
    (hclient : m.clients[client]? = some c) (hguest : guestRequest request = true)
    (hok : outcome m (.handle client request entropy) = .ok response) :
    ∃ pid : Nat, c.kind = .worker pid := by
  obtain ⟨peer, kind⟩ := c
  by_contra hworker
  have hcall : wp (handle client request entropy) (fun _ _ => False) (fun _ _ => True) m := by
    simp only [handle, wp_bind, wp_get, wp_require, wp_failIf, wp_ite, hclient, implies_true,
      true_and, Option.some.injEq]
    rintro c rfl hhelper - -
    refine ⟨fun hcontrol => ?_, fun hcontrol _ => ?_⟩
    · cases request <;> trivial
    · cases kind with
      | worker pid => exact absurd ⟨pid, rfl⟩ hworker
      | execCandidate pid id =>
        simp only [handleExecCandidate, wp_bind, wp_get, wp_require, wp_failIf, implies_true,
          true_and]
        cases request <;> first | (intros; trivial) | cases hguest
      | retired pid id => cases request <;> trivial
      | controller | launcher => exact absurd rfl hcontrol
      | helper => exact absurd rfl hhelper
  obtain ⟨-, -, -, hfalse⟩ := outcome_ok (e := .handle client request entropy)
    .replied rfl hcall hok
  exact hfalse

theorem Authorized.owns (h : Coherent m) (hauthorized : Authorized m client pid) :
    ∃ p : Process, m.Owns client pid p ∧ p.peer ∉ m.retiredPeers := by
  obtain ⟨⟨peer, kind⟩, request, entropy, response, hclient, hpid, hguest, hok⟩ := hauthorized
  obtain ⟨q, hkind⟩ := guest_is_worker hclient hguest hok
  dsimp only at hkind
  subst hkind
  cases hpid
  obtain ⟨p, howns, rfl⟩ := h.owns hclient
  exact ⟨p, howns, (h.authority.workerOwns hclient).2⟩

theorem Authorized.unique (h : Coherent m) (hi : Authorized m i pid) (hj : Authorized m j pid) :
    i = j := by
  obtain ⟨p, hp, -⟩ := hi.owns h
  obtain ⟨q, hq, -⟩ := hj.owns h
  have hsame : p = q := Option.some.inj (hp.process.symm.trans hq.process)
  subst hsame
  exact h.authority.clientsDistinct hp.connected hq.connected rfl rfl

/-! ## Between the commit and the exit of the old image -/

/-- Who hands a process over to whom. -/
structure HandOver where
  process : Nat
  owner : PeerIdentity
  target : PeerIdentity
  replacement : ClientId

/-- The exec transaction has committed this hand-over. -/
structure ExecTransaction.Commits (t : ExecTransaction) (o : HandOver) : Prop where
  retiring : t.retiring = true
  process : t.process = o.process
  owner : t.ownerPeer = o.owner
  target : t.target = o.target
  replacement : t.candidate = some o.replacement

/-- A committed exec waits for the native exit of the old image. -/
def StateManager.HandedOver (m : StateManager) (o : HandOver) : Prop :=
  ∃ (id : Nat) (t : ExecTransaction), m.execTransactions[id]? = some t ∧ t.Commits o

variable {o : HandOver}

theorem StateManager.HandedOver.nobody (h : Coherent m) (ho : m.HandedOver o)
    (client : ClientId) : ¬ Authorized m client o.process := by
  intro hauthorized
  obtain ⟨id, t, ht, hcommits⟩ := ho
  obtain ⟨p, howns, hcurrent⟩ := hauthorized.owns h
  have hcommitted := retiring_not_aborted h ht hcommits.retiring
  have howner := h.authority.execOwner ht
  rw [hcommits.process, StateManager.peerOf, column_of_get _ howns.process] at howner
  have hretired := h.authority.ownerRetired ht hcommitted
  rw [← Option.some.inj howner] at hretired
  exact hcurrent hretired

theorem StateManager.HandedOver.modify {f : ExecTransaction → ExecTransaction} {k : Nat}
    (ho : m.HandedOver o) (hexecs : m'.execTransactions = m.execTransactions.modify k f)
    (hf : ∀ t : ExecTransaction, m.execTransactions[k]? = some t → t.Commits o →
      (f t).Commits o) : m'.HandedOver o := by
  obtain ⟨id, t, ht, hcommits⟩ := ho
  by_cases heq : k = id
  · subst heq
    refine ⟨k, f t, ?_, hf t ht hcommits⟩
    rw [hexecs, get_modify, if_pos rfl, ht]
    rfl
  · refine ⟨id, t, ?_, hcommits⟩
    rw [hexecs, get_modify, if_neg heq]
    exact ht

theorem StateManager.HandedOver.change (h : Coherent m) (ho : m.HandedOver o)
    (hexit : ∀ status : Int, e ≠ .processExited o.owner status) (hchange : Change e m m') :
    m'.HandedOver o := by
  have hcommitted : ∀ {id : Nat} {t : ExecTransaction}, m.execTransactions[id]? = some t →
      t.Commits o → t.state = .committed :=
    fun ht hcommits => retiring_not_aborted h ht hcommits.retiring
  cases hchange with
  | @connectExec _ peer k u hunknown hfresh hroom hu htarget hprepared =>
    refine ho.modify (k := k) rfl fun t ht hcommits => ?_
    rw [← Option.some.inj (hu.symm.trans ht)] at hcommits
    rw [hcommitted hu hcommits] at hprepared
    cases hprepared
  | addExec =>
    obtain ⟨id, t, ht, hcommits⟩ := ho
    refine ⟨id, t, (get_insert _ _ _ _).trans ?_, hcommits⟩
    rw [if_neg]
    · exact ht
    · rintro rfl
      rw [h.numbering.exec_fresh] at ht
      cases ht
  | execReady | noteExit => exact ho.modify rfl fun t _ hcommits => { hcommits with }
  | commitExec =>
    exact ho.modify rfl fun t _ hcommits => { hcommits with retiring := rfl }
  | abortExec ht hpending =>
    rw [abortExecTransaction_of_pending ht hpending]
    exact ho.modify rfl fun t _ hcommits => { hcommits with }
  | @forgetExec _ client pid k p u hevent howner hu hprocess haborted =>
    obtain ⟨id, t, ht, hcommits⟩ := ho
    refine ⟨id, t, (get_erase _ _ _).trans ?_, hcommits⟩
    rw [if_neg]
    · exact ht
    rintro rfl
    rw [← Option.some.inj (hu.symm.trans ht)] at hcommits
    rw [hcommitted hu hcommits] at haborted
    cases haborted
  | @promote k u status hevent hu hretiring =>
    obtain ⟨id, t, ht, hcommits⟩ := ho
    refine ⟨id, t, get_filter_eq_some.mpr ⟨ht, ?_⟩, hcommits⟩
    rw [bne_iff_ne]
    intro hsame
    have howner := h.authority.execOwner hu
    rw [← hsame, h.authority.execOwner ht, hcommits.owner] at howner
    rw [← Option.some.inj howner] at hevent
    exact hexit status hevent
  | @endProcess pid p status order records hevent hp hfresh hforks hexecs =>
    obtain ⟨id, t, ht, hcommits⟩ := ho
    refine ⟨id, t, get_filter_eq_some.mpr ⟨ht, ?_⟩, hcommits⟩
    rw [bne_iff_ne]
    intro hsame
    have haborted := hexecs id t ht hsame
    rw [hcommitted ht hcommits] at haborted
    cases haborted
  | abortFork hevent ht hpending =>
    rw [abortTransaction_of_pending ht hpending]
    exact ho
  | _ => exact ho

theorem StateManager.HandedOver.steps (h : Coherent m) (ho : m.HandedOver o)
    (hexit : ∀ status : Int, e ≠ .processExited o.owner status) (hsteps : Steps e m m') :
    m'.HandedOver o :=
  (hsteps.preserves (P := fun m => Coherent m ∧ m.HandedOver o)
    (fun _ _ hm hchange => ⟨hm.1.change hchange, hm.2.change hm.1 hexit hchange⟩)
    ⟨h, ho⟩).2

theorem StateManager.HandedOver.step (h : Sound m) (ho : m.HandedOver o)
    (hexit : ∀ status : Int, e ≠ .processExited o.owner status) :
    (Manager.step m e).HandedOver o := by
  have htransition := h.transition e
  generalize Manager.step m e = m' at htransition ⊢
  cases htransition with
  | effects hsteps => exact ho.steps h.coherent hexit hsteps
  | @completed id u status exit m₁ m' hu hretiring hnoted hfirst hrest =>
    refine (ho.steps h.coherent hexit hfirst).steps (h.coherent.steps hfirst)
      (fun status' heq => ?_) hrest
    -- The replacement whose exit is completed owns nothing yet.
    obtain ⟨j, t, ht, hcommits⟩ := ho
    injection heq with hpeer
    have hfree : m.peerOf t.process ≠ some u.target := h.coherent.authority.targetUnowned hu
    refine hfree ?_
    rw [hpeer, ← hcommits.owner]
    exact h.coherent.authority.execOwner ht

variable {inputs : List Event}

theorem StateManager.HandedOver.run (h : Sound m) (ho : m.HandedOver o)
    (hexit : ∀ e ∈ inputs, ∀ status : Int, e ≠ .processExited o.owner status) :
    (Library.run Manager.step m inputs).HandedOver o := by
  induction inputs generalizing m with
  | nil => exact ho
  | cons e inputs ih =>
    obtain ⟨hfirst, hrest⟩ := List.forall_mem_cons.mp hexit
    exact ih (h.step e) (ho.step h hfirst) hrest

/-! ## After the exit of the old image -/

/-- The replacement owns the process, and nobody else can connect as its worker. -/
structure StateManager.Seated (m : StateManager) (o : HandOver) : Prop where
  owner : m.peerOf o.process = some o.target
  clients : ForAll m.clients fun i c => c.peer = o.target → i = o.replacement

/-- No exec of the process is committed. -/
def StateManager.Uncommitted (m : StateManager) (pid : Nat) : Prop :=
  ForAll m.execTransactions fun _ t => t.process = pid → t.state ≠ .committed

theorem StateManager.Seated.change (h : Coherent m) (ho : m.Seated o)
    (hexit : ∀ status : Int, e ≠ .processExited o.target status) (hchange : Change e m m') :
    m'.Seated o := by
  obtain ⟨hpeer, hclients⟩ := ho
  refine ⟨owner_change h hpeer hexit hchange, ?_⟩
  have hadd : ∀ (kind : ClientKind) {x : PeerIdentity}, m.Unknown x →
      ForAll (m.clients.insert m.nextClient ⟨x, kind⟩) fun i c =>
        c.peer = o.target → i = o.replacement := by
    intro kind x hunknown
    refine hclients.insert fun heq => absurd hpeer ?_
    rw [← heq]
    exact hunknown.unowned _
  cases hchange with
  | connectControl hkind hunknown => exact hadd _ hunknown
  | connectRoot hunknown => exact hadd _ hunknown
  | connectFork hunknown => exact hadd _ hunknown
  | connectExec hunknown => exact hadd _ hunknown
  | abortFork hevent ht hpending =>
    rw [abortTransaction_of_pending ht hpending]
    exact hclients
  | commitExec => exact hclients.modify fun c _ hc => hc
  | abortExec ht hpending =>
    rw [abortExecTransaction_of_pending ht hpending]
    exact hclients
  | dropClient => exact hclients.erase _
  | promote =>
    unfold StateManager.promote
    split
    · exact hclients.modify fun c _ hc => hc
    · exact hclients
  | _ => exact hclients

theorem StateManager.Uncommitted.change (hu : m.Uncommitted pid)
    (hcommit : ∀ (client : ClientId) (id : Nat) (entropy : Entropy) (p : Process),
      e = .handle client (.commitExec id) entropy → ¬ m.Owns client pid p)
    (hchange : Change e m m') : m'.Uncommitted pid := by
  cases hchange with
  | connectExec | execReady => exact hu.modify fun t _ _ _ => nofun
  | addExec => exact hu.insert fun _ => nofun
  | @commitExec _ client q id p t entropy hevent howner ht hprocess =>
    intro j u hj hsame
    rw [StateManager.retireOwner, get_modify_of _ ht] at hj
    split at hj
    · cases hj
      rw [← hprocess, hsame] at howner
      exact absurd howner (hcommit client id entropy p hevent)
    · exact hu j u hj hsame
  | abortExec ht hpending =>
    rw [abortExecTransaction_of_pending ht hpending]
    exact hu.modify fun t _ _ _ => nofun
  | forgetExec => exact hu.erase _
  | noteExit => exact hu.modify fun t _ ht => ht
  | promote | endProcess => exact hu.filter _
  | abortFork hevent ht hpending =>
    rw [abortTransaction_of_pending ht hpending]
    exact hu
  | _ => exact hu

/-- The replacement is the only candidate, or the process has ended for good. -/
def StateManager.Succeeded (m : StateManager) (o : HandOver) : Prop :=
  (m.Seated o ∧ m.Uncommitted o.process) ∨ m.Gone o.process

theorem StateManager.Succeeded.served (h : Coherent m) (ho : m.Succeeded o)
    (hauthorized : Authorized m client o.process) : client = o.replacement := by
  obtain ⟨p, howns, -⟩ := hauthorized.owns h
  have hpeer : m.peerOf o.process = some p.peer := column_of_get _ howns.process
  rcases ho with ⟨⟨htarget, hclients⟩, -⟩ | hgone
  · rw [hpeer] at htarget
    exact hclients client _ howns.connected (Option.some.inj htarget)
  · rw [hgone.unowned] at hpeer
    cases hpeer

theorem StateManager.Succeeded.steps (h : Coherent m) (ho : m.Succeeded o)
    (hexit : ∀ status : Int, e ≠ .processExited o.target status) (hrequest : ¬ e.Asks)
    (hsteps : Steps e m m') : m'.Succeeded o := by
  have hcommit : ∀ (m : StateManager) (client : ClientId) (id : Nat) (entropy : Entropy)
      (p : Process), e = .handle client (.commitExec id) entropy → ¬ m.Owns client o.process p := by
    rintro m client id entropy p rfl
    exact fun _ => hrequest inferInstance
  rcases ho with ho | hgone
  · exact .inl (hsteps.preserves (P := fun m => Coherent m ∧ m.Seated o ∧ m.Uncommitted o.process)
      (fun m _ hm hchange => ⟨hm.1.change hchange, hm.2.1.change hm.1 hexit hchange,
        hm.2.2.change (hcommit m) hchange⟩) ⟨h, ho⟩).2
  · exact .inr (hsteps.preserves (P := (StateManager.Gone · o.process))
      (fun _ _ hm hchange => hm.change hchange) hgone)

variable {peer : PeerIdentity}

theorem settleExit_gone (h : Coherent m)
    (hpid : m.peerOf pid = some peer) (status : Int) : (m.settleExit peer status).Gone pid := by
  have hreap := h.steps (reap_steps peer status h)
  have hpeer : (m.reap peer).peerOf pid = some peer := by
    rw [peerOf_reap]
    exact hpid
  rcases selectKeys_owned peer hreap with ⟨-, hunowned⟩ | ⟨q, hq, howned⟩
  · exact absurd hpeer (hunowned pid)
  obtain rfl := hreap.authority.peersDistinct hpeer howned
  have haborted : ((m.reap peer).abortOf (.worker pid)).peerOf pid = some peer := by
    rw [peerOf_abortOf]
    exact hpeer
  obtain ⟨p, hp, -⟩ := column_eq_some.mp haborted
  have hsteps : Steps (.processExited peer status) (m.reap peer)
      ((m.reap peer).abortOf (.worker pid)) :=
    abortOf_steps (e := .processExited peer status) trivial _ _
  have hgone := gone_endProcess (hreap.steps hsteps) hp
    ((m.reap peer).exitTable status pid).1 ((m.reap peer).exitTable status pid).2
  have hfields : ∀ m' : StateManager, m'.Gone pid →
      ({ m' with retiredPeers := m'.retiredPeers.erase peer }.collectObjects).Gone pid :=
    fun m' hgone => { hgone with }
  rw [StateManager.settleExit, hq]
  exact hfields _ hgone

/-- The call commits an exec of process `pid`. -/
def Commits (m : StateManager) (e : Event) (pid : Nat) : Prop :=
  ∃ (client : ClientId) (c : Client) (id : Nat) (entropy : Entropy) (response : Response),
    e = .handle client (.commitExec id) entropy ∧ m.clients[client]? = some c ∧
      c.kind.process = some pid ∧ outcome m e = .ok response

theorem StateManager.Seated.exit (h : Sound m) (ho : m.Seated o)
    (hcommit : m.Uncommitted o.process) (status : Int) :
    (Manager.step m (.processExited o.target status)).Gone o.process := by
  have hcurrent : m.Current o.target := by
    intro id t ht hretiring howner
    have hprocess := h.coherent.authority.peersDistinct
      (howner ▸ h.coherent.authority.execOwner ht) ho.owner
    exact hcommit id t ht hprocess (retiring_not_aborted h.coherent ht hretiring)
  obtain ⟨hsweep, -⟩ := afterSweep_spec o.target status h.coherent
  rw [step_exit_of_current h.coherent hcurrent]
  refine settleExit_gone (h.coherent.steps hsweep) ?_ status
  rw [peerOf_afterSweep h.coherent hcurrent]
  exact ho.owner

theorem StateManager.Succeeded.step (h : Sound m) (ho : m.Succeeded o)
    (hcommit : ¬ Commits m e o.process) : (Manager.step m e).Succeeded o := by
  rcases ho with ho | hgone
  swap
  · exact .inr (hgone.step h e)
  have hrequest : e.Asks → (Manager.step m e).Succeeded o := by
    intro hasks
    cases hok : outcome m e with
    | error fault =>
      rw [(h.outcome_error hok).2]
      exact .inl ho
    | ok response =>
      have hexit : ∀ status : Int, e ≠ .processExited o.target status := by
        rintro status rfl
        exact not_asks_processExited _ _ hasks
      have hchange : ∀ m' : StateManager, Change e m m' →
          m'.Seated o ∧ m'.Uncommitted o.process := by
        intro m' hchange
        refine ⟨ho.1.change h.coherent hexit hchange, ho.2.change ?_ hchange⟩
        rintro client id entropy p rfl howns
        exact hcommit ⟨client, _, id, entropy, response, rfl, howns.connected, rfl, hok⟩
      rcases effect_of_step h.coherent h.collected hasks with hsame | hone | ⟨m₁, hone, hsame⟩
      · rw [hsame]
        exact .inl ho
      · exact .inl (hchange _ hone)
      · rw [hsame]
        obtain ⟨⟨howner, hclients⟩, hnone⟩ := hchange m₁ hone
        exact .inl ⟨⟨howner, hclients⟩, hnone⟩
  by_cases hasks : e.Asks
  · exact hrequest hasks
  by_cases hexit : ∃ status : Int, e = .processExited o.target status
  · obtain ⟨status, rfl⟩ := hexit
    exact .inr (ho.1.exit h ho.2 status)
  have hother : ∀ status : Int, e ≠ .processExited o.target status :=
    fun status heq => hexit ⟨status, heq⟩
  have hbefore : m.Succeeded o := .inl ho
  have htransition := h.transition e
  generalize Manager.step m e = m' at htransition ⊢
  cases htransition with
  | effects hsteps => exact hbefore.steps h.coherent hother hasks hsteps
  | completed hu hretiring hnoted hfirst hrest =>
    refine (hbefore.steps h.coherent hother hasks hfirst).steps (h.coherent.steps hfirst)
      (fun status heq => ?_) (not_asks_processExited _ _) hrest
    injection heq with htarget
    exact h.coherent.authority.targetUnowned hu (htarget ▸ ho.1.owner)

theorem StateManager.Succeeded.run (h : Sound m) (ho : m.Succeeded o)
    (hcommit : EveryStep Manager.step (fun m e => ¬ Commits m e o.process) m inputs) :
    (Library.run Manager.step m inputs).Succeeded o := by
  induction inputs generalizing m with
  | nil => exact ho
  | cons e inputs ih => exact ih (h.step e) (ho.step h hcommit.1) hcommit.2

theorem StateManager.HandedOver.exit (h : Sound m) (ho : m.HandedOver o) (status : Int) :
    (Manager.step m (.processExited o.owner status)).Succeeded o := by
  obtain ⟨id, t, ht, hcommits⟩ := ho
  rw [← hcommits.owner, step_exit_of_replaced h.coherent ht hcommits.retiring]
  obtain ⟨hsweep, hcurrent⟩ := afterSweep_spec t.ownerPeer status h.coherent
  rw [afterSweep_owner h.coherent ht hcommits.retiring rfl] at hsweep hcurrent
  have howner := h.coherent.authority.execOwner ht
  have hseated : (m.promote t).Seated o := by
    refine ⟨?_, ?_⟩
    · rw [peerOf_promote, if_pos hcommits.process, ← hcommits.process, howner, ← hcommits.target]
      rfl
    · have hclients : ForAll m.clients fun i c => c.peer = o.target → i = o.replacement := by
        intro i c hc hpeer
        have hcandidate := (h.coherent.authority.targetClient ht hc (hpeer.trans
          hcommits.target.symm)).2
        exact Option.some.inj (hcandidate.symm.trans hcommits.replacement)
      unfold StateManager.promote
      split
      · exact hclients.modify fun c _ hc => hc
      · exact hclients
  have hnone : (m.promote t).Uncommitted o.process := by
    intro j u hu hprocess
    obtain ⟨-, hother⟩ := get_filter_eq_some.mp hu
    rw [hprocess, hcommits.process, bne_self_eq_false] at hother
    cases hother
  have hsettle := settleExit_steps status (h.coherent.steps hsweep) hcurrent
  have hidle : ((m.promote t).settleExit t.ownerPeer status).Idle t.target :=
    (promote_idle h.coherent ht).steps hsettle
  have hcoherent := (h.coherent.steps hsweep).steps hsettle
  have hsettled : ((m.promote t).settleExit t.ownerPeer status).Succeeded o := by
    refine StateManager.Succeeded.steps (h.coherent.steps hsweep) (.inl ⟨hseated, hnone⟩)
      (fun status' heq => ?_) (not_asks_processExited _ _) hsettle
    injection heq with hpeer
    rw [hpeer, ← hcommits.target] at howner
    exact h.coherent.authority.targetUnowned ht howner
  unfold StateManager.takeOver
  cases hexit : t.candidateExit with
  | none => exact hsettled
  | some exit =>
    rcases hsettled with ⟨⟨hpeer, -⟩, -⟩ | hgone
    · rw [← hcommits.target] at hpeer
      exact .inr (settleExit_gone hcoherent hpeer exit)
    · have hsteps := settleExit_steps exit hcoherent hidle.current
      exact .inr (hsteps.preserves (P := (StateManager.Gone · o.process))
        (fun _ _ hm hchange => hm.change hchange) hgone)

/-! ## The commit -/

theorem commitExec_committed (h : Coherent m) (id : Nat)
    (hpeer : ∀ t : ExecTransaction, m.execTransactions[id]? = some t → t.process = pid →
      t.ownerPeer = peer) :
    wp (commitExec client pid id) (fun _ m' => ∃ t : ExecTransaction,
      m'.execTransactions[id]? = some t ∧ t.process = pid ∧ t.ownerPeer = peer ∧
        t.state = .committed) (Rejected m) m := by
  refine wp_ownedExec fun t ht hprocess howner => ?_
  cases hstate : t.state with
  | ready =>
    have hclient := h.authority.pendingOwner ht (by rw [hstate]; rfl)
    rw [howner, hprocess] at hclient
    obtain ⟨p, ho, -⟩ := h.owns hclient
    refine wp_read (wp_unwrap ho.process (wp_unwrap hclient (wp_write ?_)))
    exact ⟨{ t with state := .committed, retiring := true },
      (get_modify_of _ ht id).trans (if_pos rfl), hprocess, hpeer t ht hprocess, rfl⟩
  | committed => exact ⟨t, ht, hprocess, hpeer t ht hprocess, hstate⟩
  | aborted | prepared | adopted => exact wp_reject _ _

theorem commit_handsOver (h : Sound m) {c : Client} {id : Nat} {entropy : Entropy}
    (hclient : m.clients[client]? = some c) (hpid : c.kind.process = some pid)
    (hok : outcome m (.handle client (.commitExec id) entropy) = .ok response) :
    ∃ (t : ExecTransaction) (replacement : ClientId),
      (step m (.handle client (.commitExec id) entropy)).execTransactions[id]? = some t ∧
        t.Commits ⟨pid, c.peer, t.target, replacement⟩ := by
  have hcall : wp (handle client (.commitExec id) entropy) (fun _ m' => ∃ t : ExecTransaction,
      m'.execTransactions[id]? = some t ∧ t.process = pid ∧ t.ownerPeer = c.peer ∧
        t.state = .committed) (Rejected m) m := by
    refine wp_read (wp_lookup fun d hd => wp_check fun hhelper => wp_check fun _ =>
      wp_check fun _ => ?_)
    refine (wp_ite _ _ _).mpr ⟨fun _ => wp_reject _ _, fun hcontrol => wp_check fun _ => ?_⟩
    obtain rfl := Option.some.inj (hclient.symm.trans hd)
    obtain ⟨peer, kind⟩ := c
    cases kind with
    | worker q =>
      cases hpid
      refine wp_read (wp_lookup fun p _ => wp_check fun _ => ?_)
      refine (wp_ite _ _ _).mpr ⟨nofun, fun _ => wp_check fun _ => wp_check fun _ => ?_⟩
      refine wp_read (commitExec_committed h.coherent id fun t ht hprocess => ?_)
      have howner := h.coherent.authority.execOwner ht
      rw [hprocess, (h.coherent.authority.workerOwns hclient).1] at howner
      exact (Option.some.inj howner).symm
    | execCandidate q j =>
      exact wp_read (wp_lookup fun t _ => wp_check fun _ => wp_check fun _ =>
        wp_lookup fun p _ => wp_reject _ _)
    | retired q j =>
      cases hpid
      refine wp_check fun hid => commitExec_committed h.coherent id fun t ht hprocess => ?_
      obtain rfl := not_not.mp hid
      exact (h.coherent.authority.retiredOf hclient ht).2.2.1
    | controller | launcher => exact absurd rfl hcontrol
    | helper => exact absurd rfl hhelper
  obtain ⟨-, -, -, t, ht, hprocess, howner, hstate⟩ := outcome_ok
    (e := .handle client (.commitExec id) entropy) .replied rfl hcall hok
  have hwellFormed := ((h.step (.handle client (.commitExec id) entropy)).coherent).authority.wellFormed ht
  obtain ⟨replacement, hreplacement⟩ := Option.ne_none_iff_exists'.mp
    (hwellFormed.attached (by rw [hstate]; nofun) (by rw [hstate]; nofun))
  exact ⟨t, replacement, ht, hwellFormed.retiringIff.mpr hstate, hprocess, howner, rfl,
    hreplacement⟩

/-! ## The statement -/

/-- At most one native authority for each process, now and in every run. -/
structure NativeAuthority (m : StateManager) : Prop where
  distinct : ∀ {pid qid : Nat} {p q : Process}, m.processes[pid]? = some p →
    m.processes[qid]? = some q → p.peer = q.peer → pid = qid
  single : ∀ {pid : Nat} {i j : ClientId}, Authorized m i pid → Authorized m j pid → i = j
  /-- A commit that succeeds leaves nobody until the old owner has exited, and from
  then to the next commit nobody but the adopted replacement. -/
  handOver : ∀ {client : ClientId} {c : Client} {pid id : Nat} {entropy : Entropy}
    {response : Response}, m.clients[client]? = some c → c.kind.process = some pid →
    outcome m (.handle client (.commitExec id) entropy) = .ok response →
    let m₁ := step m (.handle client (.commitExec id) entropy)
    ∃ (t : ExecTransaction) (replacement : ClientId), m₁.execTransactions[id]? = some t ∧
      t.process = pid ∧ t.candidate = some replacement ∧
      (∀ inputs : List Event, NoExit c.peer inputs →
        ∀ j : ClientId, ¬ Authorized (run step m₁ inputs) j pid) ∧
      ∀ (inputs : List Event) (status : Int), NoExit c.peer inputs →
        let m₂ := step (run step m₁ inputs) (.processExited c.peer status)
        ∀ rest : List Event, EveryStep step (fun m e => ¬ Commits m e pid) m₂ rest →
          ∀ j : ClientId, Authorized (run step m₂ rest) j pid → j = replacement

/-- A process of a reachable manager has at most one native authority. -/
theorem nativeAuthority (h : ReachableState m) : NativeAuthority m where
  distinct hp hq hpeer :=
    h.sound.coherent.authority.peersDistinct (column_of_get _ hp)
      (column_eq_some.mpr ⟨_, hq, hpeer.symm⟩)
  single hi hj := hi.unique h.sound.coherent hj
  handOver := by
    intro client c pid id entropy response hclient hpid hok
    obtain ⟨t, replacement, ht, hcommits⟩ := commit_handsOver h.sound hclient hpid hok
    have hsound := h.sound.step (.handle client (.commitExec id) entropy)
    have hafter : ∀ inputs : List Event, NoExit c.peer inputs →
        (run step (step m (.handle client (.commitExec id) entropy)) inputs).HandedOver
          ⟨pid, c.peer, t.target, replacement⟩ :=
      fun inputs hexit => StateManager.HandedOver.run hsound ⟨id, t, ht, hcommits⟩ hexit
    refine ⟨t, replacement, ht, hcommits.process, hcommits.replacement, ?_, ?_⟩
    · intro inputs hexit j
      exact (hafter inputs hexit).nobody (hsound.run inputs).coherent j
    · intro inputs status hexit m₂ rest hrest j hauthorized
      have ho := (hafter inputs hexit).exit (hsound.run inputs) status
      have hexited := (hsound.run inputs).step (.processExited c.peer status)
      exact (ho.run hexited hrest).served (hexited.run rest).coherent hauthorized

theorem nativeAuthority_smallExec : NativeAuthority (run step smallManager smallExec) :=
  nativeAuthority (smallManager_reaches smallExec)

end Kinakaze.Manager
