import Kinakaze.Manager.NativeAuthority

/-!
# Rollback custody

Init guards the native workers of unfinished forks and execs, and asks the manager
when to let go.  The answers are put together from the active processes and from
the records of the transactions, which come and go at different times.  Once
custody of a committed worker is released it is not taken back: at every time
either the record or an active process of that worker answers.
-/

namespace Kinakaze.Manager

open Kinakaze.Library Kinakaze.Protocol

variable {m m' : StateManager} {e : Event} {parent child peer : PeerIdentity}

/-- The candidate is the worker of an active process, or takes over from `parent`
by an exec that has committed. -/
def StateManager.Custody (m : StateManager) (parent child : PeerIdentity) : Prop :=
  (∃ pid : Nat, m.ActiveAs pid child) ∨
    ∃ o : HandOver, o.owner = parent ∧ o.target = child ∧ m.HandedOver o

/-- No exit of `child` is waiting for the exit of the image it replaces. -/
def StateManager.Unnoted (m : StateManager) (child : PeerIdentity) : Prop :=
  ForAll m.execTransactions fun _ t => t.target = child → t.candidateExit = none

/-! ## What the answers rest on -/

theorem anyValue_active : anyValue m.processes (fun p => p.peer == peer && p.state == .active) =
    true ↔ ∃ pid : Nat, m.ActiveAs pid peer := by
  rw [anyValue_eq_true]
  constructor
  · rintro ⟨pid, p, hp, hboth⟩
    obtain ⟨hpeer, hactive⟩ := Bool.and_eq_true_iff.mp hboth
    exact ⟨pid, column_eq_some.mpr ⟨p, hp, eq_of_beq hpeer⟩,
      column_eq_some.mpr ⟨p, hp, eq_of_beq hactive⟩⟩
  · rintro ⟨pid, howner, hactive⟩
    obtain ⟨p, hp, hpeer⟩ := column_eq_some.mp howner
    obtain ⟨q, hq, hstate⟩ := column_eq_some.mp hactive
    obtain rfl := Option.some.inj (hp.symm.trans hq)
    exact ⟨pid, p, hp, by simp [hpeer, hstate]⟩

theorem nativeExecState_committed (h : Coherent m) :
    m.nativeExecState parent child = .committed ↔ m.Custody parent child := by
  unfold StateManager.nativeExecState
  by_cases hactive : anyValue m.processes (fun p => p.peer == child && p.state == .active) = true
  · rw [if_pos hactive]
    exact iff_of_true rfl (.inl (anyValue_active.mp hactive))
  rw [if_neg hactive]
  have hidle : ¬ ∃ pid : Nat, m.ActiveAs pid child := fun ha => hactive (anyValue_active.mpr ha)
  constructor
  · intro hanswer
    cases hfound : findEntry m.execTransactions
        (fun t => t.ownerPeer == parent && t.target == child) with
    | none =>
      rw [hfound] at hanswer
      dsimp only at hanswer
      split at hanswer <;> cases hanswer
    | some entry =>
      obtain ⟨id, t⟩ := entry
      obtain ⟨ht, hboth⟩ := findEntry_some hfound
      obtain ⟨howner, htarget⟩ := Bool.and_eq_true_iff.mp hboth
      rw [hfound] at hanswer
      dsimp only at hanswer
      have hcommitted : t.state = .committed := by
        cases hstate : t.state <;> rw [hstate] at hanswer <;> first | rfl | cases hanswer
      have hformed := h.authority.wellFormed ht
      obtain ⟨candidate, hcandidate⟩ := Option.ne_none_iff_exists'.mp
        (hformed.attached (by rw [hcommitted]; intro h; cases h) (by rw [hcommitted]; intro h; cases h))
      exact .inr ⟨⟨t.process, parent, child, candidate⟩, rfl, rfl, id, t, ht,
        hformed.retiringIff.mpr hcommitted, rfl, eq_of_beq howner, eq_of_beq htarget, hcandidate⟩
  · rintro (ha | ⟨o, rfl, rfl, id, t, ht, hcommits⟩)
    · exact absurd ha hidle
    · have hfound : findEntry m.execTransactions
          (fun t => t.ownerPeer == o.owner && t.target == o.target) = some (id, t) := by
        refine findEntry_eq_of_unique ht (by simp [hcommits.owner, hcommits.target]) ?_
        intro j u hu hboth
        obtain ⟨-, htarget⟩ := Bool.and_eq_true_iff.mp hboth
        exact h.authority.targetsDistinct hu ht ((eq_of_beq htarget).trans hcommits.target.symm)
      rw [hfound]
      dsimp only
      rw [retiring_not_aborted h ht hcommits.retiring]

/-! ## Exits on record -/

theorem StateManager.Unnoted.change (hu : m.Unnoted child) (hspares : e.Spares child)
    (hchange : Change e m m') : m'.Unnoted child := by
  cases hchange with
  | connectExec | execReady | commitExec => exact hu.modify fun _ _ ht => ht
  | addExec => exact hu.insert fun _ => rfl
  | abortExec ht hpending =>
    rw [abortExecTransaction_of_pending ht hpending]
    exact hu.modify fun _ _ ht => ht
  | forgetExec => exact hu.erase _
  | @noteExit id t status hevent ht =>
    intro j u hj htarget
    have hj' := (get_modify _ _ _ _).symm.trans hj
    split at hj'
    · next heq =>
      subst heq
      obtain ⟨u₀, hu₀, rfl⟩ := Option.map_eq_some_iff.mp hj'
      obtain rfl := Option.some.inj (ht.symm.trans hu₀)
      exact absurd (htarget ▸ hevent) (hspares status)
    · exact hu j u hj' htarget
  | promote | endProcess => exact hu.filter _
  | abortFork hevent ht hpending =>
    rw [abortTransaction_of_pending ht hpending]
    exact hu
  | _ => exact hu

theorem StateManager.Unnoted.steps (hu : m.Unnoted child) (hspares : e.Spares child)
    (hsteps : Steps e m m') : m'.Unnoted child :=
  hsteps.preserves (P := (StateManager.Unnoted · child))
    (fun _ _ hm hchange => hm.change hspares hchange) hu

theorem StateManager.Unnoted.step (hu : m.Unnoted child) (h : Sound m) (hspares : e.Spares child) :
    (Manager.step m e).Unnoted child := by
  have htransition := h.transition e
  generalize Manager.step m e = m' at htransition ⊢
  cases htransition with
  | effects hsteps => exact hu.steps hspares hsteps
  | @completed id t status exit m₁ m' ht hretiring hexit hfirst hrest =>
    refine (hu.steps hspares hfirst).steps (fun status heq => ?_) hrest
    injection heq with htarget
    rw [hu id t ht htarget] at hexit
    cases hexit

/-! ## Custody over a run -/

theorem StateManager.HandedOver.takes {o : HandOver} (h : Sound m) (ho : m.HandedOver o)
    (hu : m.Unnoted o.target) (status : Int) :
    (Manager.step m (.processExited o.owner status)).ActiveAs o.process o.target := by
  obtain ⟨id, t, ht, hcommits⟩ := ho
  have hc := h.coherent
  obtain ⟨hsweep, hcurrent⟩ := afterSweep_spec t.ownerPeer status hc
  rw [afterSweep_owner hc ht hcommits.retiring rfl] at hsweep hcurrent
  have hsettle := settleExit_steps status (hc.steps hsweep) hcurrent
  have hstep := step_exit_of_replaced hc ht hcommits.retiring status
  rw [StateManager.takeOver, hu id t ht hcommits.target] at hstep
  have hpromote : (m.promote t).ActiveAs o.process o.target := by
    refine ⟨?_, ?_⟩
    · rw [peerOf_promote, if_pos hcommits.process, ← hcommits.process, hc.authority.execOwner ht,
        ← hcommits.target]
      rfl
    · rw [stateOf_promote, ← hcommits.process]
      exact hc.execsActive id t ht
  have hspares : (Event.processExited t.ownerPeer status).Spares o.target := by
    rintro other heq
    injection heq with hpeer
    refine hc.authority.targetUnowned ht ((hc.authority.execOwner ht).trans ?_)
    rw [hpeer, hcommits.target]
  rw [← hcommits.owner, hstep]
  exact (hsettle.preserves (P := fun m => Coherent m ∧ m.ActiveAs o.process o.target)
    (fun _ _ hm hchange => ⟨hm.1.change hchange, hm.2.change hm.1 hspares hchange⟩)
    ⟨hc.steps hsweep, hpromote⟩).2

theorem custody_step (h : Sound m) (hcustody : m.Custody parent child)
    (hnoted : m.Unnoted child ∨ e.Spares parent) (hspares : e.Spares child) :
    (step m e).Custody parent child := by
  rcases hcustody with ⟨pid, ha⟩ | ⟨o, rfl, rfl, ho⟩
  · exact .inl ⟨pid, ha.step h hspares⟩
  by_cases hexit : e.Spares o.owner
  · exact .inr ⟨o, rfl, rfl, ho.step h hexit⟩
  · obtain ⟨status, heq⟩ := not_forall.mp hexit
    obtain rfl := not_not.mp heq
    exact .inl ⟨o.process, ho.takes h (hnoted.resolve_right hexit) status⟩

theorem custody_run (h : Sound m) (hcustody : m.Custody parent child) {inputs : List Event}
    (hnoted : m.Unnoted child ∨ NoExit parent inputs) (hspares : NoExit child inputs) :
    (run step m inputs).Custody parent child := by
  induction inputs generalizing m with
  | nil => exact hcustody
  | cons e inputs ih =>
    obtain ⟨hfirst, hrest⟩ := List.forall_mem_cons.mp hspares
    rcases hnoted with hu | hparent
    · exact ih (h.step e) (custody_step h hcustody (.inl hu) hfirst) (.inl (hu.step h hfirst)) hrest
    · obtain ⟨hfirst', hrest'⟩ := List.forall_mem_cons.mp hparent
      exact ih (h.step e) (custody_step h hcustody (.inr hfirst') hfirst) (.inr hrest') hrest

theorem nativeForkState_active (h : Coherent m) {transaction : Nat}
    (hreleased : m.nativeForkState transaction peer = some true)
    (hadopted : ∀ t : Transaction, m.transactions[transaction]? = some t →
      m.peerOf t.ticket.child.pid = some peer) : ∃ pid : Nat, m.ActiveAs pid peer := by
  unfold StateManager.nativeForkState at hreleased
  split at hreleased
  · next hactive => exact anyValue_active.mp hactive
  · cases ht : m.transactions[transaction]? with
    | none => rw [ht] at hreleased; cases hreleased
    | some t =>
      rw [ht] at hreleased
      have hcommitted : t.state = .committed := by
        cases hstate : t.state <;> simp [hstate] at hreleased
        rfl
      have howner := hadopted t ht
      have hphase := h.phases.phase ht
      simp only [Transaction.Phase, hcommitted] at hphase
      refine ⟨t.ticket.child.pid, howner, hphase.2.resolve_left fun hgone => ?_⟩
      obtain ⟨p, hp, -⟩ := column_eq_some.mp howner
      rw [StateManager.stateOf, column_of_get _ hp] at hgone
      cases hgone

theorem nativeForkState_of_active {pid transaction : Nat} (ha : m.ActiveAs pid peer) :
    m.nativeForkState transaction peer = some true := by
  rw [StateManager.nativeForkState, if_pos (anyValue_active.mpr ⟨pid, ha⟩)]

/-- Custody of a committed worker does not flip: an exec stays committed until the
exit of the replacement is reported (or, if that was reported before, the exit of the
image it replaces), and a fork stays released until the exit of the child's worker. -/
theorem custody_kept (h : ReachableState m) :
    (∀ {parent child : PeerIdentity} {inputs : List Event},
      m.nativeExecState parent child = .committed → NoExit child inputs →
      m.Unnoted child ∨ NoExit parent inputs →
      (run step m inputs).nativeExecState parent child = .committed) ∧
    ∀ {transaction : Nat} {peer : PeerIdentity} {inputs : List Event},
      m.nativeForkState transaction peer = some true →
      (∀ t : Transaction, m.transactions[transaction]? = some t →
        m.peerOf t.ticket.child.pid = some peer) → NoExit peer inputs →
      (run step m inputs).nativeForkState transaction peer ≠ none := by
  refine ⟨fun {parent child inputs} hcommitted hspares hnoted => ?_,
    fun {transaction peer inputs} hreleased hadopted hspares => ?_⟩
  · rw [nativeExecState_committed h.sound.coherent] at hcommitted
    rw [nativeExecState_committed (h.sound.run inputs).coherent]
    exact custody_run h.sound hcommitted hnoted hspares
  · obtain ⟨pid, ha⟩ := nativeForkState_active h.sound.coherent hreleased hadopted
    rw [nativeForkState_of_active (ha.run h.sound hspares)]
    exact nofun

/-! ## An exit that was reported before -/

/-- The exec of `smallExec` is committed, and its replacement dies first. -/
def smallNoted : List Event :=
  smallExec ++ [.handle 1 (.commitExec 1) none, .processExited ⟨20, 1⟩ 5]

theorem custody_kept_small :
    (run step (run step smallManager smallNoted) [.disconnect 1]).nativeExecState ⟨10, 1⟩ ⟨20, 1⟩ =
        .committed ∧
      (run step (run step smallManager smallFamily) [.acknowledge 1 1]).nativeForkState 1 ⟨11, 1⟩ ≠
        none := by
  have hspares : ∀ (e : Event), (∀ peer : PeerIdentity, e.Spares peer) →
      ∀ peer : PeerIdentity, NoExit peer [e] := by
    intro e he peer e' he'
    exact List.mem_singleton.mp he' ▸ he peer
  refine ⟨(custody_kept (smallManager_reaches smallNoted)).1 (by decide +kernel)
    (hspares (.disconnect 1) (fun _ _ => nofun) _)
    (.inr (hspares (.disconnect 1) (fun _ _ => nofun) _)),
    (custody_kept (smallManager_reaches smallFamily)).2 (by decide +kernel) (fun t ht => ?_)
    (hspares (.acknowledge 1 1) (fun _ _ => nofun) _)⟩
  have hchild : column (run step smallManager smallFamily).transactions
      (fun t => t.ticket.child.pid) 1 = some 2 := by decide +kernel
  rw [column_of_get _ ht] at hchild
  rw [Option.some.inj hchild]
  decide +kernel

/-- The replacement has exited, the answer is still `committed`, and the exit of the
old image changes it. -/
theorem custody_ends_with_noted_exit : ReachableState (run step smallManager smallNoted) ∧
    (run step smallManager smallNoted).nativeExecState ⟨10, 1⟩ ⟨20, 1⟩ = .committed ∧
    NoExit ⟨20, 1⟩ [.processExited ⟨10, 1⟩ 0] ∧
    (run step (run step smallManager smallNoted) [.processExited ⟨10, 1⟩ 0]).nativeExecState
      ⟨10, 1⟩ ⟨20, 1⟩ = .aborted := by
  refine ⟨smallManager_reaches smallNoted, by decide +kernel, fun e he => ?_, by decide +kernel⟩
  rw [List.mem_singleton.mp he]
  intro status heq
  injection heq with hpeer
  injection hpeer with hpid
  cases hpid

end Kinakaze.Manager
