import Kinakaze.Manager.Exits
import Kinakaze.Manager.Requests

/-!
# Runs of the manager

Every call, whatever it answers, takes the manager from one coherent state to
another by a sequence of effects.  So what each effect preserves holds in every
reachable state, and what each effect of a permitted call preserves holds along
every run of permitted calls.
-/

namespace Kinakaze.Manager

open Kinakaze.Library Kinakaze.Protocol

variable {m m' : StateManager} {e : Event}

/-! ## The notification of a native exit -/

variable {peer : PeerIdentity}

theorem exec_exit_current (h : Coherent m) (hcurrent : m.Current peer)
    (status : Int) : exec (processExitedWithStatus peer status) m =
      (.ok ⟨⟩, (m.afterSweep peer status).settleExit peer status) := by
  rw [processExitedWithStatus, exec_bind, exec_get]
  exact exec_exit_of_current h hcurrent _

variable {t : ExecTransaction}

theorem exec_exit_replaced (h : Coherent m) {id : Nat} (ht : m.execTransactions[id]? = some t)
    (hretiring : t.retiring = true) (status : Int) :
    exec (processExitedWithStatus t.ownerPeer status) m = (.ok ⟨⟩, m.takeOver t status) := by
  have hsize : m.execTransactions.size ≠ 0 := by
    rw [← Std.ExtTreeMap.length_toList]
    exact (List.length_pos_of_mem (Std.ExtTreeMap.mem_toList_iff_getElem?_eq_some.mpr ht)).ne'
  obtain ⟨n, hn⟩ := Nat.exists_eq_succ_of_ne_zero hsize
  rw [processExitedWithStatus, exec_bind, exec_get]
  dsimp only
  rw [hn, exec_exit_of_replaced h ht hretiring]

theorem step_of_exec {status : Int}
    (hrun : exec (processExitedWithStatus peer status) m = (.ok ⟨⟩, m')) :
    step m (.processExited peer status) = m' ∧
      outcome m (.processExited peer status) = .ok .done := by
  simp only [step, outcome, Event.call, exec_bind, hrun, exec_pure, and_self]

/-- Whether the exit of `peer` lets an exec replacement take over. -/
theorem current_or_replaced (m : StateManager) (peer : PeerIdentity) :
    m.Current peer ∨ ∃ (id : Nat) (t : ExecTransaction), m.execTransactions[id]? = some t ∧
      t.retiring = true ∧ t.ownerPeer = peer := by
  by_cases hreplaced : ∃ (id : Nat) (t : ExecTransaction), m.execTransactions[id]? = some t ∧
      t.retiring = true ∧ t.ownerPeer = peer
  · exact .inr hreplaced
  · exact .inl fun id t ht hretiring howner => hreplaced ⟨id, t, ht, hretiring, howner⟩

theorem step_exit_of_current (h : Coherent m) (hcurrent : m.Current peer)
    (status : Int) : step m (.processExited peer status) =
      (m.afterSweep peer status).settleExit peer status :=
  (step_of_exec (exec_exit_current h hcurrent status)).1

theorem step_exit_of_replaced (h : Coherent m) {id : Nat} (ht : m.execTransactions[id]? = some t)
    (hretiring : t.retiring = true) (status : Int) :
    step m (.processExited t.ownerPeer status) = m.takeOver t status :=
  (step_of_exec (exec_exit_replaced h ht hretiring status)).1

theorem outcome_processExited (h : Coherent m) (peer : PeerIdentity) (status : Int) :
    outcome m (.processExited peer status) = .ok .done := by
  rcases current_or_replaced m peer with hnone | ⟨id, t, ht, hretiring, rfl⟩
  · exact (step_of_exec (exec_exit_current h hnone status)).2
  · exact (step_of_exec (exec_exit_replaced h ht hretiring status)).2

/-! ## Every call is a sequence of effects -/

/-- What a call does to the manager: its own effects, and for the exit of a
replaced image those of the exit it completes. -/
inductive Transition (m : StateManager) : Event → StateManager → Prop
  | effects {e : Event} {m' : StateManager} (hsteps : Steps e m m') : Transition m e m'
  | completed {id : Nat} {t : ExecTransaction} {status exit : Int} {m₁ m' : StateManager}
      (ht : m.execTransactions[id]? = some t) (hretiring : t.retiring = true)
      (hexit : t.candidateExit = some exit)
      (hfirst : Steps (.processExited t.ownerPeer status) m m₁)
      (hrest : Steps (.processExited t.target exit) m₁ m') :
      Transition m (.processExited t.ownerPeer status) m'

theorem Transition.preserves {P : StateManager → Prop}
    (hchange : ∀ (e : Event) (m m' : StateManager), P m → Change e m m' → P m')
    (h : Transition m e m') (hm : P m) : P m' := by
  cases h with
  | effects hsteps => exact hsteps.preserves (hchange _) hm
  | completed ht hretiring hexit hfirst hrest =>
    exact hrest.preserves (hchange _) (hfirst.preserves (hchange _) hm)

theorem Effect.steps (h : Effect e m m') : Steps e m m' := by
  rcases h with rfl | h | ⟨m₁, h, rfl⟩
  · exact .refl
  · exact .single h
  · exact (Relation.ReflTransGen.single h).tail .collect

theorem Transition.processExited (h : Coherent m) (peer : PeerIdentity) (status : Int) :
    Transition m (.processExited peer status) (step m (.processExited peer status)) := by
  obtain ⟨hsweep, hcurrent⟩ := afterSweep_spec peer status h
  have hsettle := settleExit_steps status (h.steps hsweep) hcurrent
  rcases current_or_replaced m peer with hnone | ⟨id, t, ht, hretiring, rfl⟩
  · rw [step_exit_of_current h hnone]
    exact .effects (hsweep.trans hsettle)
  rw [step_exit_of_replaced h ht hretiring]
  rw [afterSweep_owner h ht hretiring rfl] at hsweep hsettle
  unfold StateManager.takeOver
  cases hexit : t.candidateExit with
  | none => exact .effects (hsweep.trans hsettle)
  | some exit =>
    have hidle : ((m.promote t).settleExit t.ownerPeer status).Idle t.target :=
      (promote_idle h ht).steps hsettle
    exact .completed ht hretiring hexit (hsweep.trans hsettle)
      (settleExit_steps _ (h.steps (hsweep.trans hsettle)) hidle.current)

/-! ## Requests -/

variable {onError : Fault → StateManager → Prop} {α : Type}

variable {onOk : α → StateManager → Prop} {call : Rpc α}

theorem outcome_ok (next : α → Response)
    (hcall : e.call = (do return next (← call))) (h : wp call onOk onError m)
    {response : Response} (hok : outcome m e = .ok response) :
    ∃ a : α, exec call m = (.ok a, step m e) ∧ response = next a ∧ onOk a (step m e) := by
  simp only [outcome, step, hcall, exec_bind] at hok ⊢
  rcases hrun : exec call m with ⟨fault | a, m'⟩ <;> simp only [wp, hrun] at h hok ⊢
  · cases hok
  · exact ⟨a, rfl, by simpa using hok.symm, h⟩

theorem outcome_refused {next : α → Response}
    (hcall : e.call = (do return next (← call))) (h : wp call onOk onError m) {fault : Fault}
    (herror : outcome m e = .error fault) : onError fault (step m e) := by
  simp only [outcome, step, hcall, exec_bind] at herror ⊢
  rcases hrun : exec call m with ⟨fault' | a, m'⟩ <;> simp only [wp, hrun] at h herror ⊢
  · cases herror
    exact h
  · cases herror

theorem outcome_asks (h : Coherent m) (hcollected : m.collected) (hasks : e.Asks) :
    (∀ fault : Fault, outcome m e = .error fault →
      (∃ answer : RpcError, fault = .rejected answer) ∧ step m e = m) ∧
    (∀ response : Response, outcome m e = .ok response → Effect e m (step m e)) := by
  cases e with
  | connect hello peer =>
    have hcall := connect_atomic (e := .connect hello peer) h hello peer
    refine ⟨fun fault => outcome_refused rfl hcall, fun response hok => ?_⟩
    obtain ⟨-, -, -, heffect⟩ := outcome_ok (e := .connect hello peer)
      (fun found => .connected found.1 found.2) rfl hcall hok
    exact heffect
  | handle client request entropy =>
    have hcall := handle_atomic client h hcollected request entropy rfl
    refine ⟨fun fault => outcome_refused rfl hcall, fun response hok => ?_⟩
    obtain ⟨-, -, -, heffect⟩ := outcome_ok (e := .handle client request entropy)
      .replied rfl hcall hok
    exact heffect
  | acknowledge client id =>
    have hcall := acknowledge_atomic client h id
    refine ⟨fun fault => outcome_refused rfl hcall, fun response hok => ?_⟩
    obtain ⟨-, -, -, heffect⟩ := outcome_ok (e := .acknowledge client id)
      (fun _ => .done) rfl hcall hok
    exact heffect
  | disconnect client => exact absurd hasks (not_asks_disconnect client)
  | processExited peer status => exact absurd hasks (not_asks_processExited peer status)

theorem effect_of_step (h : Coherent m) (hcollected : m.collected) (hasks : e.Asks) :
    Effect e m (step m e) := by
  obtain ⟨herror, hok⟩ := outcome_asks h hcollected hasks
  cases houtcome : outcome m e with
  | error fault =>
    rw [(herror fault houtcome).2]
    exact .refl e m
  | ok response => exact hok response houtcome

theorem Transition.of_step (h : Coherent m) (hcollected : m.collected) (e : Event) :
    Transition m e (step m e) := by
  cases e with
  | disconnect client => exact .effects (disconnect_steps h (.inl rfl))
  | processExited peer status => exact .processExited h peer status
  | _ => exact .effects (effect_of_step h hcollected inferInstance).steps

theorem Coherent.step (h : Coherent m) (hcollected : m.collected) (e : Event) :
    Coherent (step m e) :=
  (Transition.of_step h hcollected e).preserves (fun _ _ _ hm hchange => hm.change hchange) h

theorem disconnect_collected (h : Coherent m) (hcollected : m.collected) (client : ClientId) :
    (m.disconnect client).collected := by
  cases hclient : m.clients[client]? with
  | some c =>
    rw [disconnect_eq h hclient]
    exact collected_collectObjects _
  | none =>
    have heq : m.disconnect client = m.releaseReservations client := by
      unfold StateManager.disconnect
      simp only [releaseReservations_clients, hclient]
    rw [heq, StateManager.collected, statesOf_releaseReservations]
    exact hcollected

theorem takeOver_collected (m : StateManager) (t : ExecTransaction) (status : Int) :
    (m.takeOver t status).collected := by
  unfold StateManager.takeOver
  cases t.candidateExit with
  | none | some => exact settleExit_collected _

theorem collected_step (h : Coherent m) (hcollected : m.collected) (e : Event) :
    (step m e).collected := by
  have hrequest : e.Asks → ¬ e.Collects → (step m e).collected := by
    intro hasks hkeeps
    rcases effect_of_step h hcollected hasks with hsame | hchange | ⟨m₁, -, hcollect⟩
    · rw [hsame]
      exact hcollected
    · exact collected_change hcollected h.numbering h.phases hchange hkeeps
    · rw [hcollect]
      exact collected_collectObjects m₁
  cases e with
  | connect | acknowledge => exact hrequest inferInstance nofun
  | handle client request entropy =>
    cases request with
    | abortFork id =>
      have hcall := handle_abortFork_collected (m := m) client id entropy
      cases houtcome : outcome m (.handle client (.abortFork id) entropy) with
      | error fault =>
        have hsame : Rejected m fault (step m (.handle client (.abortFork id) entropy)) :=
          outcome_refused rfl hcall houtcome
        rw [hsame.2]
        exact hcollected
      | ok response =>
        obtain ⟨-, -, -, hcollected⟩ := outcome_ok
          (e := .handle client (.abortFork id) entropy) .replied rfl hcall houtcome
        exact hcollected
    | _ => exact hrequest inferInstance nofun
  | disconnect client => exact disconnect_collected h hcollected client
  | processExited peer status =>
    rcases current_or_replaced m peer with hnone | ⟨id, t, ht, hretiring, rfl⟩
    · rw [step_exit_of_current h hnone]
      exact settleExit_collected _
    · rw [step_exit_of_replaced h ht hretiring]
      exact takeOver_collected m t status

/-! ## Reachable states -/

/-- The invariant of the manager between calls. -/
structure Sound (m : StateManager) : Prop where
  coherent : Coherent m
  collected : m.collected

theorem Sound.initial (h : Initial m) : Sound m := ⟨.initial h, collected_initial h⟩

theorem Sound.step (h : Sound m) (e : Event) : Sound (step m e) :=
  ⟨h.coherent.step h.collected e, collected_step h.coherent h.collected e⟩

theorem Sound.run (h : Sound m) (inputs : List Event) : Sound (Library.run Manager.step m inputs)
    := by
  induction inputs generalizing m with
  | nil => exact h
  | cons e inputs ih => exact ih (h.step e)

theorem ReachableState.sound (h : ReachableState m) : Sound m :=
  Reachable.invariant step (fun _ hm => .initial hm) (fun _ e hm => hm.step e) h

theorem Sound.transition (h : Sound m) (e : Event) : Transition m e (Manager.step m e) :=
  .of_step h.coherent h.collected e

theorem Sound.outcome_error (h : Sound m) {fault : Fault} (herror : outcome m e = .error fault) :
    (∃ answer : RpcError, fault = .rejected answer) ∧ Manager.step m e = m := by
  have hasks : e.Asks → (∃ answer : RpcError, fault = .rejected answer) ∧ Manager.step m e = m :=
    fun hasks => (outcome_asks h.coherent h.collected hasks).1 fault herror
  cases e with
  | disconnect client => cases herror
  | processExited peer status =>
    rw [outcome_processExited h.coherent] at herror
    cases herror
  | _ => exact hasks inferInstance

/-! ## A small manager -/

/-- The manager of the concrete runs, with the credential `k`. -/
def smallManager : StateManager := StateManager.new 1 "k"

def smallHello (role : ClientRole) (ticket : Option String) : Hello :=
  ⟨protocolVersion, "k", role, ticket⟩

/-- A worker that has announced an exec and whose replacement is ready. -/
def smallExec : List Event :=
  [.connect (smallHello .worker none) ⟨10, 1⟩, .handle 1 (.prepareExec 5 20 1) none,
    .connect (smallHello .worker none) ⟨20, 1⟩,
    .handle 2 .markReady none]

/-- Process 1 has a child, process 2, both with a connected worker. -/
def smallFamily : List Event :=
  [.connect (smallHello .worker none) ⟨10, 1⟩,
    .handle 1 (.prepareFork 5) (some (Vector.replicate 32 0)),
    .connect (smallHello .worker (some (String.ofList (List.replicate 64 '0')))) ⟨11, 1⟩,
    .handle 2 .markReady none,
    .handle 1 (.commitFork 1) none]

theorem smallManager_reaches (inputs : List Event) :
    ReachableState (run step smallManager inputs) :=
  (Reachable.start (.withLimits 1 "k" Limits.default)).run step inputs

end Kinakaze.Manager
