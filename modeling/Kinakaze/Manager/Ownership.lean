import Kinakaze.Manager.Pids

/-!
# Owners of processes over a run

A process keeps its native owner until the exit of that owner is reported, and
once it is active it stays active.  So what only the exit of one identity can
change holds along every run in which nobody reports that exit.

* `owner_run`: a process keeps its owner.
-/

namespace Kinakaze.Manager

open Kinakaze.Library Kinakaze.Protocol

variable {m m' : StateManager} {e : Event} {pid : Nat} {peer : PeerIdentity}

/-- The call does not report the exit of `peer`. -/
def Event.Spares (e : Event) (peer : PeerIdentity) : Prop :=
  ∀ status : Int, e ≠ .processExited peer status

/-- Nobody reports the exit of `peer`. -/
def NoExit (peer : PeerIdentity) (inputs : List Event) : Prop :=
  ∀ e ∈ inputs, e.Spares peer

theorem Event.Asks.spares [hasks : e.Asks] (peer : PeerIdentity) : e.Spares peer := by
  rintro status rfl
  exact not_asks_processExited peer status hasks

/-- What effects of calls that spare `peer` preserve, and calls that spare it
preserve as well: the exit a call completes is that of an exec target, and an exec
target owns no process. -/
theorem spared_step {P : StateManager → Prop}
    (hchange : ∀ (e : Event) (m m' : StateManager), Coherent m → P m → e.Spares peer →
      Change e m m' → P m')
    (howner : ∀ m : StateManager, P m → ∃ pid : Nat, m.peerOf pid = some peer)
    (h : Sound m) (hm : P m) (hspares : e.Spares peer) : P (step m e) := by
  have hsteps : ∀ {e : Event} {m m' : StateManager}, Coherent m → P m → e.Spares peer →
      Steps e m m' → P m' := by
    intro e m m' h hm hspares hsteps
    exact (hsteps.preserves (P := fun m => Coherent m ∧ P m)
      (fun m m' hm hone => ⟨hm.1.change hone, hchange e m m' hm.1 hm.2 hspares hone⟩) ⟨h, hm⟩).2
  have htransition := h.transition e
  generalize step m e = m' at htransition ⊢
  cases htransition with
  | effects heffects => exact hsteps h.coherent hm hspares heffects
  | completed ht hretiring hexit hfirst hrest =>
    refine hsteps (h.coherent.steps hfirst) (hsteps h.coherent hm hspares hfirst) ?_ hrest
    intro status heq
    injection heq with htarget
    obtain ⟨pid, hpid⟩ := howner m hm
    exact h.coherent.authority.targetUnowned ht (htarget ▸ hpid)

variable {inputs : List Event}

theorem spared_run {P : StateManager → Prop}
    (hstep : ∀ (m : StateManager) (e : Event), Sound m → P m → e.Spares peer → P (step m e))
    (h : Sound m) (hm : P m) (hspares : NoExit peer inputs) : P (run step m inputs) := by
  induction inputs generalizing m with
  | nil => exact hm
  | cons e inputs ih =>
    obtain ⟨hfirst, hrest⟩ := List.forall_mem_cons.mp hspares
    exact ih (h.step e) (hstep m e h hm hfirst) hrest

/-! ## Owners -/

theorem owner_change (h : Coherent m) (hpeer : m.peerOf pid = some peer)
    (hspares : e.Spares peer) (hchange : Change e m m') : m'.peerOf pid = some peer := by
  cases hchange with
  | connectRoot =>
    have hknown := (h.numbering.known_lt (.inl (by rw [hpeer]; exact Option.some_ne_none _))).2
    refine (column_insert _ _ _ _ _).trans ?_
    rw [if_neg (Nat.ne_of_gt hknown)]
    exact hpeer
  | @connectFork _ peer id t snapshot hunknown htarget hfresh hroom ht hprepared =>
    refine (column_insert _ _ _ _ _).trans ?_
    rw [if_neg]
    · exact hpeer
    -- The child of a prepared fork is not live.
    rintro rfl
    have hphase := h.phases.phase ht
    simp only [Transaction.Phase, hprepared] at hphase
    obtain ⟨p, hp, -⟩ := column_eq_some.mp hpeer
    rw [StateManager.stateOf, column_of_get _ hp] at hphase
    cases hphase.2
  | park => rw [peerOf_setPrewarm]; exact hpeer
  | bindLaunch => rw [peerOf_bindLaunch]; exact hpeer
  | addModule => rw [peerOf_addModule]; exact hpeer
  | addState => rw [peerOf_addState]; exact hpeer
  | reserveFork => rw [peerOf_reserveFork]; exact hpeer
  | commitFork => rw [peerOf_activateChild]; exact hpeer
  | abortFork => rw [peerOf_abortTransaction]; exact hpeer
  | addExec => rw [peerOf_addExec]; exact hpeer
  | abortExec ht hpending =>
    rw [abortExecTransaction_of_pending ht hpending]
    exact hpeer
  | forgetFork => rw [peerOf_forgetTransaction]; exact hpeer
  | forgetExec => rw [peerOf_forgetExec]; exact hpeer
  | release => rw [peerOf_releaseReservations]; exact hpeer
  | @promote id t status hevent ht =>
    rw [peerOf_promote, if_neg]
    · exact hpeer
    rintro rfl
    rw [h.authority.execOwner ht] at hpeer
    rw [Option.some.inj hpeer] at hevent
    exact hspares status hevent
  | @endProcess q p status order records hevent hp =>
    rw [peerOf_endProcess, if_neg]
    · exact hpeer
    rintro rfl
    rw [StateManager.peerOf, column_of_get _ hp] at hpeer
    rw [Option.some.inj hpeer] at hevent
    exact hspares status hevent
  | _ => exact hpeer

theorem owner_step (h : Sound m) (hpeer : m.peerOf pid = some peer) (hspares : e.Spares peer) :
    (step m e).peerOf pid = some peer :=
  spared_step (P := fun m => m.peerOf pid = some peer)
    (fun _ _ _ h hm hspares hchange => owner_change h hm hspares hchange)
    (fun _ hm => ⟨pid, hm⟩) h hpeer hspares

theorem owner_run (h : Sound m) (hpeer : m.peerOf pid = some peer)
    (hspares : NoExit peer inputs) : (run step m inputs).peerOf pid = some peer :=
  spared_run (P := fun m => m.peerOf pid = some peer)
    (fun _ _ h hm hspares => owner_step h hm hspares) h hpeer hspares

theorem owner_run_smallExec : (run step (run step smallManager (smallExec.take 1))
    (smallExec.drop 1)).peerOf 1 = some ⟨10, 1⟩ :=
  owner_run (smallManager_reaches _).sound (by decide +kernel) fun e he status => by
    rintro rfl
    simp [smallExec] at he

/-! ## Active processes -/

/-- An active process of the identity. -/
structure StateManager.ActiveAs (m : StateManager) (pid : Nat) (peer : PeerIdentity) : Prop where
  owner : m.peerOf pid = some peer
  active : m.stateOf pid = some .active

theorem StateManager.ActiveAs.change (h : Coherent m) (ha : m.ActiveAs pid peer)
    (hspares : e.Spares peer) (hchange : Change e m m') : m'.ActiveAs pid peer := by
  refine ⟨owner_change h ha.owner hspares hchange, ?_⟩
  have hpeer := ha.owner
  have hstate := ha.active
  cases hchange with
  | connectRoot =>
    refine (column_insert _ _ _ _ _).trans ?_
    split
    · rfl
    · exact hstate
  | @connectFork _ peer id t snapshot hunknown htarget hfresh hroom ht hprepared =>
    refine (column_insert _ _ _ _ _).trans ?_
    rw [if_neg]
    · exact hstate
    rintro rfl
    have hphase := h.phases.phase ht
    simp only [Transaction.Phase, hprepared, hstate] at hphase
    cases hphase.2
  | park => rw [stateOf_setPrewarm]; exact hstate
  | bindLaunch => rw [stateOf_bindLaunch]; exact hstate
  | addModule => rw [stateOf_addModule]; exact hstate
  | addState => rw [stateOf_addState]; exact hstate
  | reserveFork => rw [stateOf_reserveFork]; exact hstate
  | commitFork =>
    rw [stateOf_activateChild, hstate]
    split <;> rfl
  | @abortFork id t hevent ht hpending =>
    rw [stateOf_abortTransaction m ht hpending, if_neg]
    · exact hstate
    -- The child of an unfinished fork is not active.
    rintro rfl
    have hphase := h.phases.phase ht
    rw [hstate] at hphase
    cases hs : t.state <;> simp_all [Transaction.Phase, TransactionState.terminal]
  | addExec => rw [stateOf_addExec]; exact hstate
  | abortExec ht hpending =>
    rw [abortExecTransaction_of_pending ht hpending]
    exact hstate
  | forgetFork => rw [stateOf_forgetTransaction]; exact hstate
  | forgetExec => rw [stateOf_forgetExec]; exact hstate
  | release => rw [stateOf_releaseReservations]; exact hstate
  | promote => rw [stateOf_promote]; exact hstate
  | @endProcess q p status order records hevent hp =>
    rw [stateOf_endProcess, if_neg]
    · exact hstate
    rintro rfl
    rw [StateManager.peerOf, column_of_get _ hp] at hpeer
    rw [Option.some.inj hpeer] at hevent
    exact hspares status hevent
  | _ => exact hstate

theorem StateManager.ActiveAs.step (h : Sound m) (ha : m.ActiveAs pid peer)
    (hspares : e.Spares peer) : (Manager.step m e).ActiveAs pid peer :=
  spared_step (P := (StateManager.ActiveAs · pid peer))
    (fun _ _ _ h hm hspares hchange => hm.change h hspares hchange)
    (fun _ hm => ⟨pid, hm.owner⟩) h ha hspares

theorem StateManager.ActiveAs.run (h : Sound m) (ha : m.ActiveAs pid peer)
    (hspares : NoExit peer inputs) : (Library.run Manager.step m inputs).ActiveAs pid peer :=
  spared_run (P := (StateManager.ActiveAs · pid peer))
    (fun _ _ h hm hspares => hm.step h hspares) h ha hspares

/-! ## Connections -/

theorem client_change (h : Coherent m) (hchange : Change e m m') {i : ClientId} {c : Client}
    (hi : i < m.nextClient) (hc : m'.clients[i]? = some c) :
    m.clients[i]? = some c ∨ (∃ (x : PeerIdentity) (q id : Nat), c = ⟨x, .retired q id⟩) ∨
      ∃ (x : PeerIdentity) (q id : Nat), m.clients[i]? = some ⟨x, .execCandidate q id⟩ := by
  have hnew : ∀ d : Client, (m.clients.insert m.nextClient d)[i]? = some c →
      m.clients[i]? = some c := by
    intro d hd
    rwa [get_insert, if_neg (Nat.ne_of_gt hi)] at hd
  cases hchange with
  | connectControl | connectRoot | connectFork | connectExec => exact .inl (hnew _ hc)
  | abortFork hevent ht hpending =>
    rw [abortTransaction_of_pending ht hpending] at hc
    exact .inl hc
  | abortExec ht hpending =>
    rw [abortExecTransaction_of_pending ht hpending] at hc
    exact .inl hc
  | @commitExec _ owner q id =>
    have hc' := (get_modify _ _ _ _).symm.trans hc
    split at hc'
    · obtain ⟨d, -, rfl⟩ := Option.map_eq_some_iff.mp hc'
      exact .inr (.inl ⟨d.peer, q, id, rfl⟩)
    · exact .inl hc'
  | dropClient =>
    have hc' := (get_erase _ _ _).symm.trans hc
    split at hc'
    · cases hc'
    · exact .inl hc'
  | @promote id t status hevent ht hretiring =>
    have hcommitted := (h.authority.wellFormed ht).retiringIff.mp hretiring
    simp only [StateManager.promote] at hc
    split at hc
    · next candidate hcandidate =>
      rw [get_modify] at hc
      split at hc
      · next heq =>
        obtain ⟨d, hd, -⟩ := Option.map_eq_some_iff.mp hc
        subst heq
        rw [h.authority.committedCandidate ht hcommitted hcandidate hd] at hd
        exact .inr (.inr ⟨_, _, _, hd⟩)
      · exact .inl hc
    · exact .inl hc
  | _ => exact .inl hc

theorem nextClient_change (hchange : Change e m m') : m.nextClient ≤ m'.nextClient := by
  cases hchange with
  | abortFork hevent ht hpending =>
    rw [abortTransaction_of_pending ht hpending]
  | abortExec ht hpending => rw [abortExecTransaction_of_pending ht hpending]
  | _ => first | exact Nat.le_refl _ | exact Nat.le_succ _

end Kinakaze.Manager
