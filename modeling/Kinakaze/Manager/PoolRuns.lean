import Kinakaze.Manager.NativeAuthority

/-!
# The pool over a run

A worker in the pool is handed to one controller or launcher at a time, and is
bound to one launch at most.  What keeps a hand-out alive is less: nothing takes a
worker out of the pool whose connection ends or whose image commits an exec, and
such a worker is still handed out.
-/

namespace Kinakaze.Manager

open Kinakaze.Library Kinakaze.Protocol

variable {m m' : StateManager} {e : Event} {client i : ClientId} {pid : Nat}
  {peer : PeerIdentity}

/-- Where each process stands with its first launch. -/
def StateManager.prewarmOf (m : StateManager) : Nat → Option PrewarmState :=
  column m.processes Process.prewarm

/-- In the pool, and not bound to a launch yet. -/
def PrewarmState.pooled : PrewarmState → Bool
  | .poolReady | .poolReserved _ => true
  | _ => false

/-! ## Moves through the pool -/

/-- The moves of one process. -/
inductive Prewarms (e : Event) (m m' : StateManager) (pid : Nat) : Option PrewarmState → Prop
  | stays {after : Option PrewarmState} (hsame : after = m.prewarmOf pid) :
      Prewarms e m m' pid after
  | joins (hnew : m.peerOf pid = none) : Prewarms e m m' pid (some .fresh)
  | parks {p : Process} {prewarm : PrewarmState} (hasks : e.Asks)
      (hp : m.processes[pid]? = some p) (hpark : Park m pid p prewarm)
      (hafter : m' = m.setPrewarm pid prewarm) : Prewarms e m m' pid (some prewarm)
  | binds {client : ClientId} {launch : PoolLaunch} {parentPid : Nat}
      (hfrom : m.prewarmOf pid = some (.poolReserved client)) :
      Prewarms e m m' pid (some (.poolActivated launch client parentPid))
  | returns {client : ClientId} (hfrom : m.prewarmOf pid = some (.poolReserved client)) :
      Prewarms e m m' pid (some .poolReady)
  | leaves (hgone : m'.Gone pid) : Prewarms e m m' pid none

variable {q parentPid : Nat}

theorem prewarmOf_modify {f : Process → Process} (h : m'.processes = m.processes.modify q f)
    (hf : ∀ p : Process, (f p).prewarm = p.prewarm) : m'.prewarmOf = m.prewarmOf := by
  rw [StateManager.prewarmOf, h]
  exact column_modify_eq _ _ hf

theorem prewarmOf_insert {p : Process} (h : m'.processes = m.processes.insert q p) (pid : Nat) :
    m'.prewarmOf pid = if q = pid then some p.prewarm else m.prewarmOf pid := by
  rw [StateManager.prewarmOf, h]
  exact column_insert _ _ _ _ _

theorem prewarm_change (h : Coherent m) (hchange : Change e m m') (pid : Nat) :
    Prewarms e m m' pid (m'.prewarmOf pid) := by
  have hsame : m'.prewarmOf = m.prewarmOf → Prewarms e m m' pid (m'.prewarmOf pid) :=
    fun heq => .stays (congrFun heq pid)
  cases hchange with
  | connectRoot =>
    rw [prewarmOf_insert rfl]
    split
    · next heq =>
      subst heq
      exact .joins (column_eq_none.mpr h.numbering.process_fresh)
    · exact .stays rfl
  | @connectFork _ x id t snapshot hunknown htarget hfresh hroom ht hprepared =>
    rw [prewarmOf_insert rfl]
    split
    · next heq =>
      subst heq
      have hphase := h.phases.phase ht
      simp only [Transaction.Phase, hprepared] at hphase
      exact .joins (column_eq_none.mpr (column_eq_none.mp hphase.2))
    · exact .stays rfl
  | @park hasks q p prewarm hp hpark =>
    rw [StateManager.prewarmOf, StateManager.setPrewarm, column_modify]
    split
    · next heq =>
      subst heq
      rw [column_of_get _ hp]
      exact .parks hasks hp hpark rfl
    · exact .stays rfl
  | @bindLaunch _ i c q parentPid p launch hevent hclient hcontrol hp hreserved =>
    rw [StateManager.prewarmOf, StateManager.bindLaunch, column_modify]
    split
    · next heq =>
      subst heq
      rw [column_of_get _ hp]
      exact .binds ((column_of_get _ hp).trans (congrArg some hreserved))
    · exact .stays rfl
  | addModule | addState | reserveFork | commitFork | addExec | forgetFork | forgetExec | promote =>
    exact hsame (prewarmOf_modify rfl (by intro _; rfl))
  | abortFork hevent ht hpending =>
    refine hsame ?_
    rw [abortTransaction_of_pending ht hpending]
    exact prewarmOf_modify rfl (by intro _; rfl)
  | abortExec ht hpending =>
    rw [abortExecTransaction_of_pending ht hpending]
    exact .stays rfl
  | @release i =>
    have hprewarm : (m.releaseReservations i).prewarmOf pid = m.processes[pid]?.map fun p =>
        (if p.prewarm = .poolReserved i then { p with prewarm := .poolReady }
          else p).prewarm := by
      rw [StateManager.prewarmOf, StateManager.releaseReservations, column, get_map, Option.map_map]
      rfl
    rw [hprewarm]
    cases hp : m.processes[pid]? with
    | none => exact .stays (column_eq_none.mpr hp).symm
    | some p =>
      rw [Option.map_some]
      split
      · next hreserved =>
        exact .returns ((column_of_get _ hp).trans (congrArg some hreserved))
      · have hprewarm : m.prewarmOf pid = some p.prewarm := column_of_get _ hp
        exact .stays hprewarm.symm
  | @endProcess q p status order records hevent hq =>
    by_cases hpid : pid = q
    · subst hpid
      have hgone := gone_endProcess h hq order records
      rw [StateManager.prewarmOf, column_eq_none.mpr (column_eq_none.mp hgone.unowned)]
      exact .leaves hgone
    · refine .stays ?_
      change ((m.processes.erase q).map _)[pid]?.map _ = _
      rw [get_map, get_erase, if_neg (Ne.symm hpid), Option.map_map]
      rfl
  | _ => exact .stays rfl

/-! ## Reservations -/

/-- Every reservation belongs to a connected controller or launcher. -/
def StateManager.Held (m : StateManager) : Prop :=
  ∀ (pid : Nat) (client : ClientId), m.prewarmOf pid = some (.poolReserved client) →
    ∃ c : Client, m.clients[client]? = some c ∧ c.kind.isControl = true

theorem control_change (h : Coherent m) (hchange : Change e m m') {c : Client}
    (hclient : m.clients[client]? = some c) (hcontrol : c.kind.isControl = true)
    (hreserved : m'.prewarmOf pid = some (.poolReserved client)) :
    m'.clients[client]? = some c := by
  have hnew : ∀ d : Client, (m.clients.insert m.nextClient d)[client]? = some c := by
    intro d
    rw [get_insert, if_neg (Nat.ne_of_gt (h.numbering.client _ _ hclient).1)]
    exact hclient
  cases hchange with
  | connectControl | connectRoot | connectFork | connectExec => exact hnew _
  | abortFork hevent ht hpending =>
    rw [abortTransaction_of_pending ht hpending]
    exact hclient
  | abortExec ht hpending =>
    rw [abortExecTransaction_of_pending ht hpending]
    exact hclient
  | @commitExec _ owner q id p t entropy hevent howner =>
    refine (get_modify _ _ _ _).trans ?_
    rw [if_neg]
    · exact hclient
    · rintro rfl
      rw [Option.some.inj (hclient.symm.trans howner.connected)] at hcontrol
      cases hcontrol
  | @dropClient i c' hends hclient' hheld =>
    refine (get_erase _ _ _).trans ?_
    rw [if_neg]
    · exact hclient
    · rintro rfl
      obtain ⟨p, hp, hprewarm⟩ := column_eq_some.mp hreserved
      exact hheld pid p hp hprewarm
  | @promote id t status hevent ht hretiring =>
    have hcommitted := retiring_not_aborted h ht hretiring
    simp only [StateManager.promote]
    split
    · next candidate hcandidate =>
      rw [get_modify, if_neg]
      · exact hclient
      · rintro rfl
        rw [h.authority.committedCandidate ht hcommitted hcandidate hclient] at hcontrol
        cases hcontrol
    · exact hclient
  | _ => exact hclient

theorem StateManager.Held.change (h : m.Held) (hc : Coherent m) (hchange : Change e m m') :
    m'.Held := by
  intro pid client hreserved
  have hbefore : ∃ c : Client, m.clients[client]? = some c ∧ c.kind.isControl = true := by
    have hmove := prewarm_change hc hchange pid
    rw [hreserved] at hmove
    cases hmove with
    | stays hsame => exact h pid client hsame.symm
    | parks hasks hp hpark =>
      cases hpark with
      | reserve hclient hcontrol => exact ⟨_, hclient, hcontrol⟩
  obtain ⟨c, hclient, hcontrol⟩ := hbefore
  exact ⟨c, control_change hc hchange hclient hcontrol hreserved, hcontrol⟩

/-! ## Launches -/

/-- A bound launch stays until the process ends. -/
def StateManager.Launched (m : StateManager) (pid : Nat) (prewarm : PrewarmState) : Prop :=
  m.prewarmOf pid = some prewarm ∨ m.Gone pid

variable {launch : PoolLaunch}

theorem StateManager.Launched.change {owner : ClientId}
    (h : m.Launched pid (.poolActivated launch owner parentPid)) (hc : Coherent m)
    (hchange : Change e m m') : m'.Launched pid (.poolActivated launch owner parentPid) := by
  rcases h with hprewarm | hgone
  · have hmove := prewarm_change hc hchange pid
    generalize hafter : m'.prewarmOf pid = after at hmove
    cases hmove with
    | stays hsame => exact .inl (hafter.trans (hsame.trans hprewarm))
    | joins hnew =>
      obtain ⟨p, hp, -⟩ := column_eq_some.mp hprewarm
      rw [StateManager.peerOf, column_of_get _ hp] at hnew
      cases hnew
    | parks hasks hp hpark =>
      -- A bound worker cannot park again.
      rw [StateManager.prewarmOf, column_of_get _ hp] at hprewarm
      have hbound := Option.some.inj hprewarm
      cases hpark with
      | markPrewarmReady howner hroot hfrom =>
        rw [hbound] at hfrom
        rcases hfrom with h | h <;> cases h
      | activatePrewarm hfrom =>
        rw [hbound] at hfrom
        rcases hfrom with h | h <;> cases h
      | markPoolReady howner hactive hroot hfrom =>
        rw [hbound] at hfrom
        rcases hfrom with h | h <;> cases h
      | reserve hclient hcontrol hfrom => rw [hbound] at hfrom; cases hfrom
      | release hfrom => rw [hbound] at hfrom; cases hfrom
    | binds hfrom => rw [hfrom] at hprewarm; cases hprewarm
    | returns hfrom => rw [hfrom] at hprewarm; cases hprewarm
    | leaves hgone => exact .inr hgone
  · exact .inr (hgone.change hchange)

theorem activated_run {owner : ClientId} (h : Sound m)
    (hl : m.Launched pid (.poolActivated launch owner parentPid)) (inputs : List Event) :
    (run step m inputs).Launched pid (.poolActivated launch owner parentPid) := by
  induction inputs generalizing m with
  | nil => exact hl
  | cons e inputs ih =>
    refine ih (h.step e) ?_
    have hpair : Coherent (step m e) ∧
        (step m e).Launched pid (.poolActivated launch owner parentPid) :=
      (h.transition e).preserves (P := fun m => Coherent m ∧
          m.Launched pid (.poolActivated launch owner parentPid))
        (fun _ _ _ hm hchange => ⟨hm.1.change hchange, hm.2.change hm.1 hchange⟩)
        ⟨h.coherent, hl⟩
    exact hpair.2

/-! ## Live workers -/

/-- The worker of process `pid` is active and connected as `i`. -/
structure StateManager.Pinned (m : StateManager) (pid : Nat) (i : ClientId)
    (peer : PeerIdentity) : Prop where
  connected : m.clients[i]? = some ⟨peer, .worker pid⟩
  active : m.ActiveAs pid peer

/-- The call ends the connection of a pooled worker, or commits its exec. -/
def Event.LosesWorker (m : StateManager) : Event → Prop
  | .disconnect i => ∃ (peer : PeerIdentity) (pid : Nat) (prewarm : PrewarmState),
      m.clients[i]? = some ⟨peer, .worker pid⟩ ∧ m.prewarmOf pid = some prewarm ∧
        prewarm.pooled = true
  | .handle i (.commitExec id) _ => ∃ (peer : PeerIdentity) (pid : Nat) (prewarm : PrewarmState)
      (t : ExecTransaction), m.clients[i]? = some ⟨peer, .worker pid⟩ ∧
        m.prewarmOf pid = some prewarm ∧ prewarm.pooled = true ∧
        m.execTransactions[id]? = some t ∧ t.process = pid ∧ t.owner = i ∧ t.state = .ready
  | _ => False

/-- Nothing but its own exec, the end of its connection and its native exit unpins a
worker. -/
theorem StateManager.Pinned.change (h : m.Pinned pid i peer) (hc : Coherent m)
    (hspares : e.Spares peer) (hstays : e ≠ .disconnect i)
    (hcommit : ∀ (id : Nat) (entropy : Entropy), e = .handle i (.commitExec id) entropy →
      ∀ t : ExecTransaction, m.execTransactions[id]? = some t → t.process = pid → t.owner = i →
        t.state ≠ .ready) (hchange : Change e m m') : m'.Pinned pid i peer := by
  refine ⟨?_, h.active.change hc hspares hchange⟩
  have hnew : ∀ d : Client, (m.clients.insert m.nextClient d)[i]? = some ⟨peer, .worker pid⟩ := by
    intro d
    rw [get_insert, if_neg (Nat.ne_of_gt (hc.numbering.client _ _ h.connected).1)]
    exact h.connected
  cases hchange with
  | connectControl | connectRoot | connectFork | connectExec => exact hnew _
  | abortFork hevent ht hpending =>
    rw [abortTransaction_of_pending ht hpending]
    exact h.connected
  | abortExec ht hpending =>
    rw [abortExecTransaction_of_pending ht hpending]
    exact h.connected
  | @commitExec _ owner q id p t entropy hevent howner ht hprocess hclient hready =>
    refine (get_modify _ _ _ _).trans ?_
    rw [if_neg]
    · exact h.connected
    rintro rfl
    have hpid : q = pid := by
      have hsame := Option.some.inj (howner.connected.symm.trans h.connected)
      injection hsame with _ hkind
      injection hkind
    exact hcommit id entropy hevent t ht (hprocess.trans hpid) hclient hready
  | @dropClient j c hends hclient =>
    refine (get_erase _ _ _).trans ?_
    rw [if_neg]
    · exact h.connected
    rintro rfl
    rcases hends with rfl | ⟨d, status, hd, rfl⟩
    · exact hstays rfl
    · rw [h.connected] at hd
      cases hd
      exact hspares status rfl
  | @promote id t status hevent ht hretiring =>
    have hcommitted := retiring_not_aborted hc ht hretiring
    simp only [StateManager.promote]
    split
    · next candidate hcandidate =>
      rw [get_modify, if_neg]
      · exact h.connected
      · rintro rfl
        have hkind := hc.authority.committedCandidate ht hcommitted hcandidate h.connected
        cases hkind
    · exact h.connected
  | _ => exact h.connected

theorem StateManager.Pinned.step (h : m.Pinned pid i peer) (hsound : Sound m)
    (hends : ¬ e.Asks) (hspares : e.Spares peer) (hstays : e ≠ .disconnect i) :
    (Manager.step m e).Pinned pid i peer := by
  have hsteps : ∀ {e : Event} {m m' : StateManager}, Coherent m → m.Pinned pid i peer →
      ¬ e.Asks → e.Spares peer → e ≠ .disconnect i → Steps e m m' → m'.Pinned pid i peer := by
    intro e m m' hc hm hends hspares hstays hsteps
    refine (hsteps.preserves (P := fun m => Coherent m ∧ m.Pinned pid i peer)
      (fun _ _ hm hchange => ⟨hm.1.change hchange,
        hm.2.change hm.1 hspares hstays ?_ hchange⟩) ⟨hc, hm⟩).2
    rintro id entropy rfl
    exact absurd (inferInstance : (Event.handle i (.commitExec id) entropy).Asks) hends
  have htransition := hsound.transition e
  generalize Manager.step m e = m' at htransition ⊢
  cases htransition with
  | effects heffects => exact hsteps hsound.coherent h hends hspares hstays heffects
  | completed ht hretiring hexit hfirst hrest =>
    refine hsteps (hsound.coherent.steps hfirst)
      (hsteps hsound.coherent h hends hspares hstays hfirst) (not_asks_processExited _ _)
      (fun status heq => ?_) nofun hrest
    injection heq with htarget
    exact hsound.coherent.authority.targetUnowned ht (htarget ▸ h.active.owner)

/-- In the pool. -/
def StateManager.Pooled (m : StateManager) (pid : Nat) : Prop :=
  ∃ prewarm : PrewarmState, m.prewarmOf pid = some prewarm ∧ prewarm.pooled = true

/-- Every worker in the pool is active and connected. -/
def StateManager.Manned (m : StateManager) : Prop :=
  ∀ pid : Nat, m.Pooled pid → ∃ (i : ClientId) (peer : PeerIdentity), m.Pinned pid i peer

theorem pooled_change (hc : Coherent m) (hchange : Change e m m') (hpooled : m'.Pooled pid) :
    m.Pooled pid ∨ e.Asks ∧ ∃ (i : ClientId) (peer : PeerIdentity), m'.Pinned pid i peer := by
  obtain ⟨prewarm, hprewarm, hin⟩ := hpooled
  have hmove := prewarm_change hc hchange pid
  rw [hprewarm] at hmove
  cases hmove with
  | stays hsame => exact .inl ⟨prewarm, hsame.symm, hin⟩
  | joins => cases hin
  | binds => cases hin
  | returns hfrom => exact .inl ⟨_, hfrom, rfl⟩
  | @parks p _ hasks hp hpark hafter =>
    have hbefore : m.prewarmOf pid = some p.prewarm := column_of_get _ hp
    cases hpark with
    | markPrewarmReady => cases hin
    | activatePrewarm => cases hin
    | @markPoolReady client howner hactive =>
      refine .inr ⟨hasks, client, p.peer, ?_, ?_, ?_⟩ <;> rw [hafter]
      · exact howner.connected
      · rw [peerOf_setPrewarm]
        exact column_of_get _ hp
      · rw [stateOf_setPrewarm]
        exact (column_of_get _ hp).trans (congrArg some hactive)
    | reserve hclient hcontrol hfrom => exact .inl ⟨_, hbefore, by rw [hfrom]; rfl⟩
    | release hfrom => exact .inl ⟨_, hbefore, by rw [hfrom]; rfl⟩

theorem StateManager.Manned.change [hasks : e.Asks] (h : m.Manned) (hc : Coherent m)
    (hkeeps : ¬ e.LosesWorker m) (hchange : Change e m m') : m'.Manned := by
  intro pid hpooled
  rcases pooled_change hc hchange hpooled with hbefore | ⟨-, i, peer, hpinned⟩
  · obtain ⟨i, peer, hpinned⟩ := h pid hbefore
    refine ⟨i, peer, hpinned.change hc (hasks.spares peer) ?_ ?_ hchange⟩
    · rintro rfl
      exact not_asks_disconnect i hasks
    · rintro id entropy rfl t ht hprocess howner hready
      obtain ⟨prewarm, hprewarm, hin⟩ := hbefore
      exact hkeeps ⟨peer, pid, prewarm, t, hpinned.connected, hprewarm, hin, ht, hprocess,
        howner, hready⟩
  · exact ⟨i, peer, hpinned⟩

theorem pooled_of_end (hc : Coherent m) (hends : ¬ e.Asks) (htransition : Transition m e m')
    (hpooled : m'.Pooled pid) : m.Pooled pid := by
  have hsteps : ∀ {e : Event} {m m' : StateManager}, Coherent m → ¬ e.Asks → Steps e m m' →
      m'.Pooled pid → m.Pooled pid := by
    intro e m m' hc hends hsteps
    refine (hsteps.preserves
      (P := fun m₁ => Coherent m₁ ∧ (m₁.Pooled pid → m.Pooled pid)) (fun m₁ m₂ hm hchange => ?_)
      ⟨hc, id⟩).2
    refine ⟨hm.1.change hchange, fun hpooled => hm.2 ?_⟩
    exact (pooled_change hm.1 hchange hpooled).resolve_right fun hask => hends hask.1
  cases htransition with
  | effects heffects => exact hsteps hc hends heffects hpooled
  | completed ht hretiring hexit hfirst hrest =>
    exact hsteps hc hends hfirst
      (hsteps (hc.steps hfirst) (not_asks_processExited _ _) hrest hpooled)

theorem StateManager.Pinned.exit (h : m.Pinned pid i peer) (hsound : Sound m) (status : Int) :
    (Manager.step m (.processExited peer status)).Gone pid := by
  have hc := hsound.coherent
  have hcurrent : m.Current peer := by
    intro id t ht hretiring howner
    refine (hc.authority.workerOwns h.connected).2 (howner ▸ ?_)
    exact hc.authority.ownerRetired ht (retiring_not_aborted hc ht hretiring)
  obtain ⟨hsweep, -⟩ := afterSweep_spec peer status hc
  rw [step_exit_of_current hc hcurrent]
  refine settleExit_gone (hc.steps hsweep) ?_ status
  rw [peerOf_afterSweep hc hcurrent]
  exact h.active.owner

theorem StateManager.Gone.not_pooled (h : m.Gone pid) : ¬ m.Pooled pid := by
  rintro ⟨prewarm, hprewarm, -⟩
  obtain ⟨p, hp, -⟩ := column_eq_some.mp hprewarm
  have hunowned := h.unowned
  rw [StateManager.peerOf, column_of_get _ hp] at hunowned
  cases hunowned

theorem StateManager.Manned.step (h : m.Manned) (hsound : Sound m)
    (hkeeps : ¬ e.LosesWorker m) : (Manager.step m e).Manned := by
  have hc := hsound.coherent
  by_cases hasks : e.Asks
  · rcases effect_of_step hc hsound.collected hasks with hsame | hchange | ⟨m₁, hchange, hsame⟩
    · rw [hsame]
      exact h
    · exact h.change hc hkeeps hchange
    · rw [hsame]
      intro pid hpooled
      obtain ⟨i, peer, hpinned⟩ := h.change hc hkeeps hchange pid hpooled
      exact ⟨i, peer, hpinned.connected, hpinned.active.owner, hpinned.active.active⟩
  · intro pid hpooled
    have hbefore := pooled_of_end hc hasks (hsound.transition e) hpooled
    obtain ⟨i, peer, hpinned⟩ := h pid hbefore
    refine ⟨i, peer, hpinned.step hsound hasks ?_ ?_⟩
    · rintro status rfl
      exact (hpinned.exit hsound status).not_pooled hpooled
    · rintro rfl
      obtain ⟨prewarm, hprewarm, hin⟩ := hbefore
      exact hkeeps ⟨peer, pid, prewarm, hpinned.connected, hprewarm, hin⟩

theorem StateManager.Held.step (h : m.Held) (hsound : Sound m) (e : Event) :
    (Manager.step m e).Held :=
  ((hsound.transition e).preserves (P := fun m => Coherent m ∧ m.Held)
    (fun _ _ _ hm hchange => ⟨hm.1.change hchange, hm.2.change hm.1 hchange⟩)
    ⟨hsound.coherent, h⟩).2

/-! ## The pool in every state of a run -/

/-- Hand-outs are exclusive and live. -/
structure PoolSound (m : StateManager) : Prop where
  holder : ∀ {pid : Nat} {p : Process} {client : ClientId}, m.processes[pid]? = some p →
    p.prewarm = .poolReserved client →
    ∃ c : Client, m.clients[client]? = some c ∧ c.kind.isControl = true
  launchedOnce : ∀ {pid : Nat} {p : Process} {launch : PoolLaunch} {owner : ClientId}
    {parentPid : Nat}, m.processes[pid]? = some p →
    p.prewarm = .poolActivated launch owner parentPid →
    ∀ (inputs : List Event) (p' : Process), (run step m inputs).processes[pid]? = some p' →
      p'.prewarm = .poolActivated launch owner parentPid
  handOut : ∀ {client : ClientId} {entropy : Entropy} {pid hostPid birth : Nat},
    outcome m (.handle client .reservePoolWorker entropy) =
      .ok (.replied (.poolWorker pid hostPid birth)) →
    ∃ (p : Process) (i : ClientId), m.processes[pid]? = some p ∧ p.peer = ⟨hostPid, birth⟩ ∧
      p.state = .active ∧ m.clients[i]? = some ⟨p.peer, .worker pid⟩ ∧
      p.peer ∉ m.retiredPeers

theorem handle_reservePoolWorker (hc : Coherent m) (client : ClientId) (entropy : Entropy) :
    wp (handle client .reservePoolWorker entropy)
      (fun reply _ => ∃ (pid : Nat) (p : Process), m.processes[pid]? = some p ∧
        p.prewarm = .poolReady ∧ reply = .poolWorker pid p.peer.hostPid p.peer.birth)
      (Rejected m) m := by
  refine wp_read (wp_lookup fun c hclient => wp_check fun _ => wp_check fun _ =>
    wp_check fun _ => ?_)
  refine (wp_ite _ _ _).mpr ⟨fun _ => ?_, fun _ => wp_check fun hno => absurd rfl hno⟩
  refine wp_read (wp_read (wp_lookup fun found hfound => wp_write ?_))
  obtain ⟨hp, hready⟩ := findEntry_some hfound
  refine ⟨found.1, found.2, hp, by simpa using hready, ?_⟩
  rw [(hc.numbering.process _ _ hp).2.2]

theorem poolSound_of_manned (h : Sound m) (hheld : m.Held) (hmanned : m.Manned) : PoolSound m where
  holder hp hreserved := hheld _ _ ((column_of_get _ hp).trans (congrArg some hreserved))
  launchedOnce hp hbound inputs p' hp' := by
    rcases activated_run h (.inl ((column_of_get _ hp).trans (congrArg some hbound))) inputs with
      hafter | hgone
    · rw [StateManager.prewarmOf, column_of_get _ hp'] at hafter
      exact Option.some.inj hafter
    · have hunowned := hgone.unowned
      rw [StateManager.peerOf, column_of_get _ hp'] at hunowned
      cases hunowned
  handOut {client entropy pid hostPid birth} hok := by
    obtain ⟨reply, -, hreply, q, p, hp, hready, hworker⟩ :=
      outcome_ok (e := .handle client .reservePoolWorker entropy) .replied rfl
        (handle_reservePoolWorker h.coherent client entropy) hok
    rw [hworker] at hreply
    cases hreply
    have hpooled : m.Pooled pid := ⟨p.prewarm, column_of_get _ hp, by rw [hready]; rfl⟩
    obtain ⟨i, peer, hpinned⟩ := hmanned pid hpooled
    obtain rfl : p.peer = peer := by
      have howner := hpinned.active.owner
      rw [StateManager.peerOf, column_of_get _ hp] at howner
      exact Option.some.inj howner
    have hactive := hpinned.active.active
    rw [StateManager.stateOf, column_of_get _ hp] at hactive
    exact ⟨p, i, hp, rfl, Option.some.inj hactive, hpinned.connected,
      (h.coherent.authority.workerOwns hpinned.connected).2⟩

/-- Over every run in which no pooled worker loses its connection by an end of file
or commits an exec, every hand-out of the pool is exclusive and live. -/
theorem pool_kept (h : Initial m) {inputs : List Event}
    (hkeeps : EveryStep step (fun m e => ¬ e.LosesWorker m) m inputs) :
    EveryState step PoolSound m inputs := by
  have hempty : ∀ pid : Nat, m.prewarmOf pid = none := by
    intro pid
    cases h <;> exact column_eq_none.mpr Std.ExtTreeMap.getElem?_empty
  have hheld : m.Held := fun pid client hreserved => by rw [hempty] at hreserved; cases hreserved
  have hmanned : m.Manned := fun pid hpooled => by
    obtain ⟨prewarm, hprewarm, -⟩ := hpooled
    rw [hempty] at hprewarm
    cases hprewarm
  exact (EveryState.of_preserved (P := fun m => Sound m ∧ m.Held ∧ m.Manned)
    (fun _ e hm hok => ⟨hm.1.step e, hm.2.1.step hm.1 e, hm.2.2.step hm.1 hok⟩)
    ⟨.initial h, hheld, hmanned⟩ hkeeps).mono fun _ hm => poolSound_of_manned hm.1 hm.2.1 hm.2.2

/-! ## A worker without a connection -/

/-- A worker joins the pool and hangs up; then a controller connects. -/
def deafWorker : List Event :=
  [.connect (smallHello .worker none) ⟨10, 1⟩, .handle 1 .markPoolReady none, .disconnect 1,
    .connect (smallHello .controller none) ⟨12, 1⟩]

/-- A worker joins the pool and is reserved. -/
def smallPool : List Event :=
  [.connect (smallHello .worker none) ⟨10, 1⟩, .handle 1 .markPoolReady none,
    .connect (smallHello .controller none) ⟨12, 1⟩,
    .handle 2 .reservePoolWorker none]

theorem pool_kept_smallPool : EveryState step PoolSound smallManager smallPool :=
  pool_kept (.withLimits 1 "k" Limits.default) ⟨not_false, not_false, not_false, not_false, trivial⟩

/-- The pool hands out a worker that nobody can reach. -/
theorem deaf_worker_reserved : ReachableState (run step smallManager deafWorker) ∧
    outcome (run step smallManager deafWorker) (.handle 2 .reservePoolWorker none) =
      .ok (.replied (.poolWorker 1 10 1)) ∧
    ¬ PoolSound (run step smallManager deafWorker) := by
  have hreserved : outcome (run step smallManager deafWorker) (.handle 2 .reservePoolWorker none) =
      .ok (.replied (.poolWorker 1 10 1)) := by decide
  refine ⟨smallManager_reaches deafWorker, hreserved, fun hsound => ?_⟩
  obtain ⟨p, i, hp, hpeer, -, hclient, -⟩ := hsound.handOut hreserved
  have hnone : anyValue (run step smallManager deafWorker).clients
      (fun c => c.peer == ⟨10, 1⟩) = false := by decide
  have hother := anyValue_eq_false.mp hnone i _ hclient
  rw [hpeer] at hother
  cases hother

end Kinakaze.Manager
