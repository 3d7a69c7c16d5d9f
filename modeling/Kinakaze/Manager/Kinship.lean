import Kinakaze.Manager.Ancestry

/-!
# The process tree and access to memory

A worker may ask for the native owner of another process, to reach its memory,
when the parent links lead from that process to its own.  The links form a forest
in every state of a run exactly when no launch binds a pooled worker below one of
its own descendants: only a worker that becomes its own parent is refused.
-/

namespace Kinakaze.Manager

open Kinakaze.Library Kinakaze.Protocol

variable {m m' : StateManager} {e : Event} {pid parentPid caller target : Nat}

/-- One or more parent links lead from `pid` to `ancestor`. -/
def StateManager.Descends (m : StateManager) (pid ancestor : Nat) : Prop :=
  Relation.TransGen (fun child parent => m.parentOf child = some parent) pid ancestor

/-- Some worker of process `caller` is answered the native owner of `target`. -/
def StateManager.MayAccess (m : StateManager) (caller target : Nat) : Prop :=
  ∃ (client : ClientId) (peer : PeerIdentity) (write : Bool) (entropy : Entropy) (reply : Reply),
    m.clients[client]? = some ⟨peer, .worker caller⟩ ∧
      outcome m (.handle client (.processMemoryTarget target write) entropy) = .ok (.replied reply)

/-- The parent links form a forest, and memory is open to ancestors only. -/
structure Kinship (m : StateManager) : Prop where
  parentLive : ∀ {pid : Nat} {p : Process}, m.processes[pid]? = some p →
    p.identity.parentPid = 0 ∨ ∃ q : Process, m.processes[p.identity.parentPid]? = some q
  reservedParentLive : ∀ {id : Nat} {t : Transaction}, m.transactions[id]? = some t →
    t.state = .prepared → t.ticket.child.parentPid = 0 ∨
      ∃ q : Process, m.processes[t.ticket.child.parentPid]? = some q
  lineage : ∀ {pid : Nat} {p : Process}, m.processes[pid]? = some p →
    ∃ path : List Nat, Lineage m.parentOf 0 pid path ∧ path.Nodup
  reservedLineage : ∀ {id : Nat} {t : Transaction}, m.transactions[id]? = some t →
    t.state = .prepared → ∃ path : List Nat,
      Lineage m.parentOf 0 t.ticket.child.parentPid path ∧ (t.ticket.child.pid :: path).Nodup
  descendant : ∀ {caller target : Nat}, m.MayAccess caller target →
    target = caller ∨ m.Descends target caller
  exclusive : ∀ {caller target : Nat}, caller ≠ target →
    ¬ (m.MayAccess caller target ∧ m.MayAccess target caller)

/-! ## Access -/

theorem reaches_of_isAncestor {steps : Nat} (h : m.isAncestor caller steps pid = true) :
    Relation.ReflTransGen (fun child parent => m.parentOf child = some parent) pid caller := by
  induction steps generalizing pid with
  | zero => cases h
  | succ steps ih =>
    rw [StateManager.isAncestor] at h
    split at h
    · next heq => exact heq ▸ .refl
    · cases hp : m.processes[pid]? with
      | none => simp [hp] at h
      | some p =>
        simp only [hp] at h
        split at h
        · cases h
        · exact .head (column_of_get _ hp) (ih h)

variable {client : ClientId}

theorem handle_processMemoryTarget {peer : PeerIdentity}
    (hclient : m.clients[client]? = some ⟨peer, .worker caller⟩) (write : Bool) (entropy : Entropy)
    :
    wp (handle client (.processMemoryTarget target write) entropy)
      (fun _ _ => (∃ p : Process, m.processes[caller]? = some p) ∧
        Relation.ReflTransGen (fun child parent => m.parentOf child = some parent) target caller)
      (Rejected m) m := by
  refine wp_read (wp_lookup fun c hc => ?_)
  obtain rfl := Option.some.inj (hclient.symm.trans hc)
  refine wp_check fun _ => wp_check fun _ => wp_check fun _ => ?_
  refine (wp_ite _ _ _).mpr ⟨nofun, fun _ => wp_check fun _ => ?_⟩
  refine wp_read (wp_lookup fun p hp => wp_check fun _ => ?_)
  refine (wp_ite _ _ _).mpr ⟨nofun, fun _ => wp_check fun _ => wp_check fun _ => ?_⟩
  refine wp_read (wp_check fun _ => wp_read (wp_lookup fun q _ => wp_check fun _ =>
    wp_check fun hancestor => ⟨⟨p, hp⟩, reaches_of_isAncestor (by simpa using hancestor)⟩))

theorem StateManager.MayAccess.reaches (h : m.MayAccess caller target) :
    (∃ p : Process, m.processes[caller]? = some p) ∧
      Relation.ReflTransGen (fun child parent => m.parentOf child = some parent) target caller := by
  obtain ⟨client, peer, write, entropy, reply, hclient, hok⟩ := h
  obtain ⟨-, -, -, hreach⟩ := outcome_ok (e := .handle client (.processMemoryTarget target write)
    entropy) .replied rfl (handle_processMemoryTarget hclient write entropy) hok
  exact hreach

theorem Forest.mem_of_mayAccess (h : Forest m) (hn : Numbering m)
    (haccess : m.MayAccess caller target) (htarget : ∃ p : Process, m.processes[target]? = some p) :
    ∃ path : List Nat, Lineage m.parentOf 0 target path ∧ caller ∈ path := by
  obtain ⟨⟨p, hp⟩, hreach⟩ := haccess.reaches
  obtain ⟨q, hq⟩ := htarget
  obtain ⟨path, hpath⟩ := h.process (column_of_get _ hq)
  exact ⟨path, hpath, hpath.mem_of_reaches hn.parentOf_zero hreach
    (hn.live_ne_zero (column_of_get _ hp))⟩

/-! ## The property and the forest -/

theorem StateManager.Rooted.live (h : m.Rooted pid) :
    pid = 0 ∨ ∃ q : Process, m.processes[pid]? = some q := by
  obtain ⟨path, hpath⟩ := h
  cases hpath with
  | root => exact .inl rfl
  | step _ hlink _ =>
    obtain ⟨q, hq, -⟩ := column_eq_some.mp hlink
    exact .inr ⟨q, hq⟩

theorem lineage_live {path : List Nat} (h : Lineage m.parentOf 0 pid path) {b : Nat}
    (hb : b ∈ path) : m.parentOf b ≠ none := by
  obtain ⟨rest, hrest, -⟩ := h.tail hb
  cases hrest with
  | root => exact absurd rfl (h.ne_root hb)
  | step _ hlink _ =>
    rw [hlink]
    exact nofun

theorem Coherent.reserved_not_live (h : Coherent m) {id : Nat} {t : Transaction}
    (ht : m.transactions[id]? = some t) (hprepared : t.state = .prepared) :
    m.parentOf t.ticket.child.pid = none := by
  have hphase := h.phases.phase ht
  simp only [Transaction.Phase, hprepared] at hphase
  exact column_eq_none.mpr (column_eq_none.mp hphase.2)

theorem kinship_iff_forest (h : Coherent m) : Kinship m ↔ Forest m := by
  constructor
  · intro hkin
    refine ⟨fun {pid parentPid} hlink => ?_, fun ht hprepared => ?_⟩
    · obtain ⟨p, hp, -⟩ := column_eq_some.mp hlink
      obtain ⟨path, hpath, -⟩ := hkin.lineage hp
      exact ⟨path, hpath⟩
    · obtain ⟨path, hpath, -⟩ := hkin.reservedLineage ht hprepared
      exact ⟨path, hpath⟩
  · intro hforest
    have hne : ∀ {pid : Nat} {p : Process}, m.processes[pid]? = some p → pid ≠ 0 :=
      fun hp => h.numbering.live_ne_zero (column_of_get _ hp)
    exact
      { parentLive := fun {pid p} hp =>
          ((hforest.process (column_of_get _ hp)).parent (hne hp) (column_of_get _ hp)).live
        reservedParentLive := fun ht hprepared => (hforest.reserved ht hprepared).live
        lineage := fun {pid p} hp => by
          obtain ⟨path, hpath⟩ := hforest.process (column_of_get _ hp)
          exact ⟨path, hpath, hpath.nodup⟩
        reservedLineage := fun {id t} ht hprepared => by
          obtain ⟨path, hpath⟩ := hforest.reserved ht hprepared
          refine ⟨path, hpath, List.nodup_cons.mpr ⟨fun hmem => ?_, hpath.nodup⟩⟩
          exact lineage_live hpath hmem (h.reserved_not_live ht hprepared)
        descendant := fun {caller target} haccess => by
          rcases Relation.reflTransGen_iff_eq_or_transGen.mp haccess.reaches.2 with heq | hpath
          · exact .inl heq.symm
          · exact .inr hpath
        exclusive := fun {caller target} hdiff hboth => by
          obtain ⟨hforth, hback⟩ := hboth
          obtain ⟨path, hpath, hmem⟩ := hforest.mem_of_mayAccess h.numbering hforth hback.reaches.1
          obtain ⟨path', hpath', hmem'⟩ :=
            hforest.mem_of_mayAccess h.numbering hback hforth.reaches.1
          exact hdiff (hpath'.antisymm hpath hmem' hmem) }

/-! ## Launching under a live process -/

/-- `activate_pool_worker` binds the worker: every check of it passes. -/
structure StateManager.Binds (m : StateManager) (client : ClientId) (pid parentPid : Nat)
    (launch : PoolLaunch) : Prop where
  control : ∃ c : Client, m.clients[client]? = some c ∧ c.kind.isControl = true
  valid : launch.valid = true
  notSelf : parentPid ≠ pid
  reserved : ∃ p : Process, m.processes[pid]? = some p ∧ p.prewarm = .poolReserved client
  parent : parentPid = 0 ∨ ∃ q : Process, m.processes[parentPid]? = some q ∧
    q.state = .active ∧ q.prewarm.standby = false ∧ q.peer ∉ m.retiredPeers

/-- A controller or launcher binds a worker it has reserved, and the new parent is
a descendant of the worker. -/
def Event.ClosesCircle (m : StateManager) : Event → Prop
  | .handle client (.activatePoolWorkerUnderParent pid parentPid launch) _ =>
    m.Binds client pid parentPid launch ∧ m.Descends parentPid pid
  | _ => False

variable {launch : PoolLaunch}

theorem activatePoolWorker_binds {c : Client} (hc : m.clients[client]? = some c)
    (hcontrol : c.kind.isControl = true) :
    wp (activatePoolWorker client pid parentPid launch)
      (fun _ m' => m' = m ∨ m.Binds client pid parentPid launch ∧
        m' = m.bindLaunch pid parentPid client launch) (Rejected m) m := by
  refine wp_check fun hvalid => wp_check fun hself => wp_read (wp_lookup fun p hp => ?_)
  split
  · exact wp_check fun _ => .inl rfl
  refine wp_check fun hreserved => ?_
  have hbinds := StateManager.Binds.mk ⟨c, hc, hcontrol⟩ (by simpa using hvalid) hself
    ⟨p, hp, not_not.mp hreserved⟩
  split
  · refine wp_lookup fun q hq => wp_check fun hactive => .inr ⟨hbinds (.inr ⟨q, hq, ?_⟩), rfl⟩
    simpa [not_or] using hactive
  · next hroot => exact .inr ⟨hbinds (.inl (not_not.mp hroot)), rfl⟩

theorem handle_activateUnder (client : ClientId) (launch : PoolLaunch) (entropy : Entropy) :
    wp (handle client (.activatePoolWorkerUnderParent pid parentPid launch) entropy)
      (fun _ m' => m' = m ∨ m.Binds client pid parentPid launch ∧
        m' = m.bindLaunch pid parentPid client launch) (Rejected m) m := by
  refine wp_read (wp_lookup fun c hc => wp_check fun _ => wp_check fun _ => wp_check fun _ => ?_)
  refine (wp_ite _ _ _).mpr ⟨fun hcontrol => ?_, fun _ => wp_check fun hno => absurd rfl hno⟩
  exact wp_read (activatePoolWorker_binds hc hcontrol)

theorem step_activateUnder (client : ClientId) (launch : PoolLaunch) (entropy : Entropy) :
    step m (.handle client (.activatePoolWorkerUnderParent pid parentPid launch) entropy) = m ∨
      m.Binds client pid parentPid launch ∧
        step m (.handle client (.activatePoolWorkerUnderParent pid parentPid launch) entropy) =
          m.bindLaunch pid parentPid client launch := by
  cases houtcome : outcome m
      (.handle client (.activatePoolWorkerUnderParent pid parentPid launch) entropy) with
  | error fault =>
    have hrejected := outcome_refused rfl (handle_activateUnder client launch entropy) houtcome
    exact .inl hrejected.2
  | ok response =>
    obtain ⟨-, -, -, hdone⟩ := outcome_ok .replied rfl
      (handle_activateUnder client launch entropy) houtcome
    exact hdone

theorem StateManager.Binds.step (h : m.Binds client pid parentPid launch) (entropy : Entropy) :
    Manager.step m (.handle client (.activatePoolWorkerUnderParent pid parentPid launch) entropy) =
      m.bindLaunch pid parentPid client launch := by
  obtain ⟨⟨c, hc, hcontrol⟩, hvalid, hself, ⟨p, hp, hreserved⟩, hparent⟩ := h
  have hcall : exec (activatePoolWorker client pid parentPid launch) m =
      (.ok .ok, m.bindLaunch pid parentPid client launch) := by
    by_cases hroot : parentPid = 0
    · subst hroot
      simp [activatePoolWorker, exec_bind, failIf, require, hvalid, hself, hp, hreserved,
        -bind_pure_comp]
    · obtain ⟨q, hq, hactive, hstandby, hretired⟩ := hparent.resolve_left hroot
      simp [activatePoolWorker, exec_bind, failIf, require, hvalid, hself, hp, hreserved, hroot,
        hq, hactive, hstandby, hretired, -bind_pure_comp]
  obtain ⟨peer, kind⟩ := c
  cases kind with
  | controller =>
    simp [Manager.step, Event.call, handle, handleControl, exec_bind, require, failIf, hc, hcall,
      isHello, ClientKind.isControl, -bind_pure_comp]
  | launcher =>
    simp [Manager.step, Event.call, handle, handleControl, exec_bind, require, failIf, hc, hcall,
      isHello, ClientKind.isControl, launcherMay, -bind_pure_comp]
  | _ => cases hcontrol

/-! ## Runs -/

theorem Forest.of_effects (h : Forest m) (hc : Coherent m) (hbinds : ¬ e.Rebinds)
    (hsteps : Steps e m m') : Forest m' :=
  (hsteps.preserves (P := fun m => Coherent m ∧ Forest m)
    (fun _ _ hm hchange => ⟨hm.1.change hchange, hm.2.change hm.1 hchange hbinds⟩) ⟨hc, h⟩).2

theorem Forest.of_transition (h : Forest m) (hc : Coherent m) (hbinds : ¬ e.Rebinds)
    (htransition : Transition m e m') : Forest m' := by
  cases htransition with
  | effects hsteps => exact h.of_effects hc hbinds hsteps
  | completed ht hretiring hexit hfirst hrest =>
    exact (h.of_effects hc hbinds hfirst).of_effects (hc.steps hfirst) id hrest

theorem Forest.bindLaunch_iff (h : Forest m) (hc : Coherent m)
    (hbinds : m.Binds client pid parentPid launch) :
    Forest (m.bindLaunch pid parentPid client launch) ↔ ¬ m.Descends parentPid pid := by
  obtain ⟨p, hp, -⟩ := hbinds.reserved
  have hlink : m.parentOf pid = some p.identity.parentPid := column_of_get _ hp
  have hne : pid ≠ 0 := hc.numbering.live_ne_zero hlink
  have hlinks := parentOf_bindLaunch client launch hp parentPid
  have hrooted : m.Rooted parentPid := by
    rcases hbinds.parent with rfl | ⟨q, hq, -⟩
    · exact rooted_zero m
    · exact h.process (column_of_get _ hq)
  obtain ⟨above, habove⟩ := hrooted
  constructor
  · intro hafter hdescends
    have hmem : pid ∈ above :=
      habove.mem_of_reaches hc.numbering.parentOf_zero hdescends.to_reflTransGen hne
    obtain ⟨path, hpath⟩ := hafter.process ((hlinks pid).trans (if_pos rfl))
    exact no_lineage_of_relink habove hmem hlinks hpath
  · intro hnot
    refine h.relink (.of_eq rfl) hne habove (fun hmem => ?_) (h.process hlink) hlinks
    rcases Relation.reflTransGen_iff_eq_or_transGen.mp (habove.reaches hmem) with heq | hdescends
    · exact hbinds.notSelf heq.symm
    · exact hnot hdescends

theorem Forest.step_iff (h : Forest m) (hsound : Sound m) (e : Event) :
    Forest (step m e) ↔ ¬ e.ClosesCircle m := by
  by_cases hrebinds : e.Rebinds
  · -- The only call that can close a circle.
    unfold Event.Rebinds at hrebinds
    split at hrebinds
    · next client pid parentPid launch entropy =>
      by_cases hbinds : m.Binds client pid parentPid launch
      · rw [hbinds.step, h.bindLaunch_iff hsound.coherent hbinds]
        simp only [Event.ClosesCircle, hbinds, true_and]
      have hsame := (step_activateUnder (m := m) client launch entropy).resolve_right
        fun hdone => hbinds hdone.1
      rw [hsame]
      simp only [Event.ClosesCircle, hbinds, false_and, not_false_iff, h]
    · exact hrebinds.elim
  · refine iff_of_true (h.of_transition hsound.coherent hrebinds (hsound.transition e)) ?_
    intro hcloses
    unfold Event.ClosesCircle at hcloses
    split at hcloses
    · exact hrebinds trivial
    · exact hcloses

/-- In every state of a run the links form a forest and memory is open to ancestors
only, exactly when no call of the run closes a circle. -/
theorem kinship_iff (h : Initial m) (inputs : List Event) :
    EveryState step Kinship m inputs ↔ EveryStep step (fun m e => ¬ e.ClosesCircle m) m inputs := by
  refine everyState_iff_everyStep (I := Sound) (fun _ e hm => hm.step e)
    (fun m e hm hkin => ?_) (.initial h)
    ((kinship_iff_forest (Coherent.initial h)).mpr (.initial h))
  rw [kinship_iff_forest (hm.step e).coherent]
  exact ((kinship_iff_forest hm.coherent).mp hkin).step_iff hm e

theorem kinship_iff_smallExec : EveryState step Kinship smallManager smallExec ↔
      EveryStep step (fun m e => ¬ e.ClosesCircle m) smallManager smallExec :=
  kinship_iff (.withLimits 1 "k" Limits.default) smallExec

/-! ## A circle -/

/-- The token of a ticket drawn from 32 zero bytes. -/
def zeroToken : String := String.ofList (List.replicate 64 '0')

def circleLaunch : PoolLaunch := ⟨["/init"], "/", none⟩

/-- A worker forks a child, joins the pool, and is launched under that child. -/
def poolCircle : List Event :=
  [.connect (smallHello .worker none) ⟨10, 1⟩,
    .handle 1 (.prepareFork 5) (some (Vector.replicate 32 0)),
    .connect (smallHello .worker (some zeroToken)) ⟨11, 1⟩,
    .handle 2 .markReady none,
    .handle 1 (.commitFork 1) none,
    .handle 1 .markPoolReady none,
    .connect (smallHello .controller none) ⟨12, 1⟩,
    .handle 3 .reservePoolWorker none,
    .handle 3 (.activatePoolWorkerUnderParent 1 2 circleLaunch) none]

/-- Parent and child are each other's parent, and each may access the other's memory. -/
theorem circle_reached : ReachableState (run step smallManager poolCircle) ∧
    (run step smallManager poolCircle).parentOf 1 = some 2 ∧
    (run step smallManager poolCircle).parentOf 2 = some 1 ∧
    ¬ Kinship (run step smallManager poolCircle) := by
  refine ⟨smallManager_reaches poolCircle, by decide +kernel, by decide +kernel, fun hkin => ?_⟩
  have hforth : (run step smallManager poolCircle).MayAccess 1 2 :=
    ⟨1, ⟨10, 1⟩, false, none, .processMemoryTarget 11 1, by decide +kernel, by decide +kernel⟩
  have hback : (run step smallManager poolCircle).MayAccess 2 1 :=
    ⟨2, ⟨11, 1⟩, false, none, .processMemoryTarget 10 1, by decide +kernel, by decide +kernel⟩
  exact hkin.exclusive (by decide) ⟨hforth, hback⟩

end Kinakaze.Manager
