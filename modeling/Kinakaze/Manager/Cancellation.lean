import Kinakaze.Manager.Custody

/-!
# Unfinished forks and end of file

Only the worker of the parent can commit or abort a fork, so an unfinished fork
must not outlive the last connection that is that worker or will be.  While a
committed exec waits for the old image to die that connection is the candidate's,
and its end aborts nothing.
-/

namespace Kinakaze.Manager

open Kinakaze.Library Kinakaze.Protocol

variable {m m' : StateManager} {e : Event} {i : ClientId} {pid : Nat}

/-- Connection `i` is the worker of process `pid`, or the candidate of a committed exec
that takes over on the native exit of the old image. -/
def StateManager.Guards (m : StateManager) (i : ClientId) (pid : Nat) : Prop :=
  (∃ peer : PeerIdentity, m.clients[i]? = some ⟨peer, .worker pid⟩) ∨
    ∃ (id : Nat) (t : ExecTransaction), m.execTransactions[id]? = some t ∧
      t.retiring = true ∧ m.clients[i]? = some ⟨t.target, .execCandidate pid id⟩

/-- Fork transaction `id` of process `pid` is prepared, adopted or ready. -/
def StateManager.Unfinished (m : StateManager) (id pid : Nat) : Prop :=
  ∃ t : Transaction, m.transactions[id]? = some t ∧ t.parent = pid ∧ t.state.terminal = false

/-- Every unfinished fork has a connection that can finish it. -/
def StateManager.Guarded (m : StateManager) : Prop :=
  ∀ id pid : Nat, m.Unfinished id pid → ∃ i : ClientId, m.Guards i pid

/-- The call takes down the candidate of a committed exec whose process has an
unfinished fork. -/
def Event.Strands (e : Event) (m : StateManager) : Prop :=
  ∃ (i : ClientId) (pid id : Nat) (t : ExecTransaction), m.execTransactions[id]? = some t ∧
    t.retiring = true ∧ m.clients[i]? = some ⟨t.target, .execCandidate pid id⟩ ∧
    e.Ends m i ∧ ∃ j : Nat, m.Unfinished j pid

/-! ## Forks across effects -/

variable {k id : Nat}

theorem unfinished_modify {f : Transaction → Transaction}
    (h : m'.transactions = m.transactions.modify k f)
    (hf : ∀ t : Transaction, m.transactions[k]? = some t →
      (f t).parent = t.parent ∧ ((f t).state.terminal = false → t.state.terminal = false))
    (hopen : m'.Unfinished id pid) : m.Unfinished id pid := by
  obtain ⟨t, ht, hparent, hpending⟩ := hopen
  rw [h, get_modify] at ht
  split at ht
  · next heq =>
    subst heq
    obtain ⟨t₀, ht₀, rfl⟩ := Option.map_eq_some_iff.mp ht
    obtain ⟨hsame, hback⟩ := hf t₀ ht₀
    exact ⟨t₀, ht₀, hsame ▸ hparent, hback hpending⟩
  · exact ⟨t, ht, hparent, hpending⟩

theorem unfinished_change (hc : Coherent m) (hchange : Change e m m')
    (hopen : m'.Unfinished id pid) : m.Unfinished id pid ∨
      e.Asks ∧ ∃ (i : ClientId) (p : Process), m.Owns i pid p ∧ m'.clients = m.clients := by
  cases hchange with
  | @connectFork _ peer k t snapshot hunknown htarget hfresh hroom ht hprepared =>
    refine .inl (unfinished_modify (f := fun t => { t with snapshot := none, state := .adopted })
      rfl (fun u hu => ⟨rfl, fun _ => ?_⟩) hopen)
    obtain rfl := Option.some.inj (ht.symm.trans hu)
    rw [hprepared]
    rfl
  | @reserveFork hasks client q requestKey parentPid next p token objects states howner =>
    obtain ⟨t, ht, hparent, hpending⟩ := hopen
    have ht' := (get_insert _ _ _ _).symm.trans ht
    split at ht'
    · cases ht'
      obtain rfl : q = pid := hparent
      exact .inr ⟨hasks, client, p, howner, rfl⟩
    · exact .inl ⟨t, ht', hparent, hpending⟩
  | @forkReady _ client q k p howner hpending =>
    refine .inl (unfinished_modify (f := fun t => { t with state := .ready })
      rfl (fun u hu => ⟨rfl, fun _ => ?_⟩) hopen)
    obtain ⟨t, ht, hstate⟩ := hc.pending_unfinished howner.process hpending
    exact Option.some.inj (ht.symm.trans hu) ▸ hstate
  | commitFork =>
    exact .inl (unfinished_modify (f := fun t => { t with state := .committed })
      rfl (fun _ _ => ⟨rfl, nofun⟩) hopen)
  | abortFork hevent ht hpending =>
    rw [abortTransaction_of_pending ht hpending] at hopen
    exact .inl (unfinished_modify (f := fun t => { t with state := .aborted, snapshot := none })
      rfl (fun _ _ => ⟨rfl, nofun⟩) hopen)
  | abortExec ht hpending =>
    rw [abortExecTransaction_of_pending ht hpending] at hopen
    exact .inl hopen
  | forgetFork =>
    obtain ⟨t, ht, hparent, hpending⟩ := hopen
    have ht' := (get_erase _ _ _).symm.trans ht
    split at ht'
    · cases ht'
    · exact .inl ⟨t, ht', hparent, hpending⟩
  | promote =>
    obtain ⟨t, ht, hparent, hpending⟩ := hopen
    exact .inl ⟨t, (get_filter_eq_some.mp ht).1, hparent, hpending⟩
  | endProcess =>
    obtain ⟨t, ht, hparent, hpending⟩ := hopen
    obtain ⟨t₀, ht₀, -, rfl⟩ := (transactions_endProcess m).mp ht
    exact .inl ⟨t₀, ht₀, hparent, hpending⟩
  | _ => exact .inl hopen

/-! ## Guards across effects -/

/-- Exec transactions that change nothing about a committed exec. -/
def KeepsExecs (m m' : StateManager) : Prop :=
  ∀ (id : Nat) (t : ExecTransaction), m.execTransactions[id]? = some t → t.retiring = true →
    ∃ t' : ExecTransaction, m'.execTransactions[id]? = some t' ∧ t'.retiring = true ∧
      t'.target = t.target

theorem KeepsExecs.of_modify {f : ExecTransaction → ExecTransaction}
    (h : m'.execTransactions = m.execTransactions.modify k f)
    (hf : ∀ t : ExecTransaction, t.retiring = true → (f t).retiring = true ∧
      (f t).target = t.target) : KeepsExecs m m' := by
  intro id t ht hretiring
  by_cases heq : k = id
  · subst heq
    refine ⟨f t, ?_, hf t hretiring⟩
    rw [h, get_modify, if_pos rfl, ht]
    rfl
  · refine ⟨t, ?_, hretiring, rfl⟩
    rw [h, get_modify, if_neg heq]
    exact ht

theorem KeepsExecs.of_eq (h : m'.execTransactions = m.execTransactions) : KeepsExecs m m' :=
  fun _ t ht hretiring => ⟨t, h ▸ ht, hretiring, rfl⟩

theorem StateManager.Guards.congr (h : m.Guards i pid) (hexecs : KeepsExecs m m')
    (hclient : m'.clients[i]? = m.clients[i]?) : m'.Guards i pid := by
  rcases h with ⟨peer, hc⟩ | ⟨id, t, ht, hretiring, hc⟩
  · exact .inl ⟨peer, hclient.trans hc⟩
  · obtain ⟨t', ht', hretiring', htarget⟩ := hexecs id t ht hretiring
    exact .inr ⟨id, t', ht', hretiring', by rw [hclient, hc, htarget]⟩

theorem StateManager.Guards.client (h : m.Guards i pid) : ∃ c : Client, m.clients[i]? = some c := by
  rcases h with ⟨peer, hc⟩ | ⟨id, t, -, -, hc⟩
  · exact ⟨_, hc⟩
  · exact ⟨_, hc⟩

variable {t : ExecTransaction}

theorem StateManager.Guards.commit (h : m.Guards i pid) (hc : Coherent m) {client : ClientId}
    {q : Nat} {p : Process} (howner : m.Owns client q p) (ht : m.execTransactions[id]? = some t)
    (hprocess : t.process = q) (hready : t.state = .ready) :
    ∃ j : ClientId, (m.retireOwner client q id p.peer).Guards j pid := by
  have hexecs : KeepsExecs m (m.retireOwner client q id p.peer) :=
    .of_modify (f := fun t => { t with state := .committed, retiring := true }) rfl
      fun _ _ => ⟨rfl, rfl⟩
  by_cases heq : client = i
  · subst heq
    -- The owner becomes the retired image, and the candidate is the guard.
    obtain rfl : q = pid := by
      rcases h with ⟨peer, hclient⟩ | ⟨_, _, _, _, hclient⟩
      · rw [howner.connected] at hclient
        cases hclient
        rfl
      · rw [howner.connected] at hclient
        simp at hclient
    have hformed := hc.authority.wellFormed ht
    obtain ⟨candidate, hcandidate⟩ := Option.ne_none_iff_exists'.mp
      (hformed.attached (by rw [hready]; nofun) (by rw [hready]; nofun))
    have hclient := hc.authority.pendingCandidate ht (by rw [hready]; rfl) hcandidate
    rw [hprocess] at hclient
    refine ⟨candidate, .inr ⟨id, { t with state := .committed, retiring := true }, ?_, rfl, ?_⟩⟩
    · refine (get_modify _ _ _ _).trans ?_
      rw [if_pos rfl, ht]
      rfl
    · refine (get_modify _ _ _ _).trans ?_
      rw [if_neg]
      · exact hclient
      · rintro rfl
        rw [howner.connected] at hclient
        simp at hclient
  · refine ⟨i, h.congr hexecs ?_⟩
    refine (get_modify _ _ _ _).trans ?_
    rw [if_neg heq]

theorem StateManager.Guards.promote (h : m.Guards i pid) (hc : Coherent m)
    (ht : m.execTransactions[id]? = some t) (hretiring : t.retiring = true) :
    (m.promote t).Guards i pid := by
  have hcommitted := retiring_not_aborted hc ht hretiring
  -- The candidate of `t` is a candidate, no other connection changes.
  have hother : t.candidate ≠ some i → (m.promote t).clients[i]? = m.clients[i]? := by
    intro hne
    simp only [StateManager.promote]
    split
    · next candidate hcandidate =>
      rw [get_modify, if_neg]
      rintro rfl
      exact hne hcandidate
    · rfl
  rcases h with ⟨peer, hclient⟩ | ⟨k, u, hu, huretiring, hclient⟩
  · refine .inl ⟨peer, (hother fun hcandidate => ?_).trans hclient⟩
    have hkind := hc.authority.committedCandidate ht hcommitted hcandidate hclient
    cases hkind
  obtain ⟨huprocess, -, hucandidate⟩ := hc.authority.candidateOf hclient hu
  have hucommitted := retiring_not_aborted hc hu huretiring
  by_cases hsame : u.process = t.process
  · obtain rfl : k = id := hc.authority.execUnique hu ht hsame
      (by rw [hucommitted]; intro h; cases h) (by rw [hcommitted]; intro h; cases h)
    obtain rfl := Option.some.inj (hu.symm.trans ht)
    refine .inl ⟨u.target, ?_⟩
    simp only [StateManager.promote, hucandidate]
    rw [get_modify, if_pos rfl, hclient, Option.map_some, huprocess]
  · refine .inr ⟨k, u, get_filter_eq_some.mpr ⟨hu, by simpa using hsame⟩, huretiring,
      (hother fun hcandidate => ?_).trans hclient⟩
    have hkind := hc.authority.committedCandidate ht hcommitted hcandidate hclient
    injection hkind with _ hkind
    injection hkind with hprocess
    exact hsame (huprocess.trans hprocess)

theorem guard_change (h : m.Guards i pid) (hc : Coherent m) (hchange : Change e m m')
    (hopen : m'.Unfinished id pid) (hends : ¬ e.Strands m)
    (hbefore : m.Unfinished id pid) : ∃ j : ClientId, m'.Guards j pid := by
  obtain ⟨c, hclient⟩ := h.client
  have hnew : ∀ d : Client, (m.clients.insert m.nextClient d)[i]? = m.clients[i]? := by
    intro d
    rw [get_insert, if_neg (Nat.ne_of_gt (hc.numbering.client _ _ hclient).1)]
  cases hchange with
  | connectControl | connectRoot | connectFork => exact ⟨i, h.congr (.of_eq rfl) (hnew _)⟩
  | @connectExec _ peer k t =>
    exact ⟨i, h.congr (.of_modify (f := fun t =>
      { t with candidate := some m.nextClient, state := .adopted }) rfl
      fun _ hretiring => ⟨hretiring, rfl⟩) (hnew _)⟩
  | addExec =>
    refine ⟨i, h.congr (fun k t ht hretiring => ⟨t, ?_, hretiring, rfl⟩) rfl⟩
    refine (get_insert _ _ _ _).trans ?_
    rw [if_neg (Nat.ne_of_gt (hc.numbering.exec k t ht).1)]
    exact ht
  | execReady =>
    exact ⟨i, h.congr (.of_modify (f := fun t => { t with state := .ready }) rfl
      fun _ hretiring => ⟨hretiring, rfl⟩) rfl⟩
  | commitExec hevent howner ht hprocess howned hready =>
    exact h.commit hc howner ht hprocess hready
  | abortExec ht hpending =>
    rw [abortExecTransaction_of_pending ht hpending]
    exact ⟨i, h.congr (.of_modify (f := fun t => { t with state := .aborted }) rfl
      fun _ hretiring => ⟨hretiring, rfl⟩) rfl⟩
  | @forgetExec _ client q k p u hevent howner hu hprocess haborted =>
    refine ⟨i, h.congr (fun j t ht hretiring => ⟨t, ?_, hretiring, rfl⟩) rfl⟩
    refine (get_erase _ _ _).trans ?_
    rw [if_neg]
    · exact ht
    rintro rfl
    obtain rfl := Option.some.inj (hu.symm.trans ht)
    rw [retiring_not_aborted hc hu hretiring] at haborted
    cases haborted
  | @dropClient j d hdrops hd hreserved hexecs hforks =>
    refine ⟨i, h.congr (.of_eq rfl) ?_⟩
    refine (get_erase _ _ _).trans ?_
    rw [if_neg]
    rintro rfl
    obtain ⟨t, ht, hparent, hpending⟩ := hbefore
    rcases h with ⟨peer, hworker⟩ | ⟨k, u, hu, hretiring, hcandidate⟩
    · rw [hd] at hworker
      cases hworker
      exact hforks id t ht hpending (by rw [hparent])
    · exact hends ⟨j, pid, k, u, hu, hretiring, hcandidate, hdrops, id, t, ht, hparent, hpending⟩
  | noteExit =>
    exact ⟨i, h.congr (.of_modify rfl fun _ hretiring => ⟨hretiring, rfl⟩) rfl⟩
  | promote hevent ht hretiring => exact ⟨i, h.promote hc ht hretiring⟩
  | @endProcess q p status order records =>
    obtain ⟨t, ht, hparent, hpending⟩ := hopen
    obtain ⟨t₀, ht₀, hother, rfl⟩ := (transactions_endProcess m).mp ht
    rcases h with ⟨peer, hworker⟩ | ⟨k, u, hu, hretiring, hcandidate⟩
    · exact ⟨i, .inl ⟨peer, hworker⟩⟩
    obtain ⟨huprocess, -⟩ := hc.authority.candidateOf hcandidate hu
    refine ⟨i, .inr ⟨k, u, get_filter_eq_some.mpr ⟨hu, ?_⟩, hretiring, hcandidate⟩⟩
    rw [huprocess, ← hparent]
    simpa using hother
  | abortFork hevent ht hpending =>
    rw [abortTransaction_of_pending ht hpending]
    exact ⟨i, h.congr (.of_eq rfl) rfl⟩
  | _ => exact ⟨i, h.congr (.of_eq rfl) rfl⟩

theorem StateManager.Guarded.change (h : m.Guarded) (hc : Coherent m) (hends : ¬ e.Strands m)
    (hchange : Change e m m') : m'.Guarded := by
  intro id pid hopen
  rcases unfinished_change hc hchange hopen with hbefore | ⟨-, i, p, howner, hclients⟩
  · obtain ⟨i, hguards⟩ := h id pid hbefore
    exact guard_change hguards hc hchange hopen hends hbefore
  · exact ⟨i, .inl ⟨p.peer, by rw [hclients]; exact howner.connected⟩⟩

/-! ## The end of a candidate -/

theorem candidate_back (hends : ¬ e.Asks) (hchange : Change e m m') {x : PeerIdentity} {q : Nat}
    (hclient : m'.clients[i]? = some ⟨x, .execCandidate q k⟩) :
    m.clients[i]? = some ⟨x, .execCandidate q k⟩ := by
  cases hchange with
  | abortFork hevent ht hpending =>
    rw [abortTransaction_of_pending ht hpending] at hclient
    exact hclient
  | abortExec ht hpending =>
    rw [abortExecTransaction_of_pending ht hpending] at hclient
    exact hclient
  | dropClient =>
    have hclient' := (get_erase _ _ _).symm.trans hclient
    split at hclient'
    · cases hclient'
    · exact hclient'
  | promote =>
    simp only [StateManager.promote] at hclient
    split at hclient
    · rw [get_modify] at hclient
      split at hclient
      · obtain ⟨d, -, hd⟩ := Option.map_eq_some_iff.mp hclient
        cases hd
      · exact hclient
    · exact hclient
  | collect | release | noteExit | endProcess | forgetRetired => exact hclient
  | _ => exact absurd ‹Event.Asks _› hends

theorem exec_back (hends : ¬ e.Asks) (hchange : Change e m m')
    (ht : m'.execTransactions[id]? = some t) :
    ∃ t₀ : ExecTransaction, m.execTransactions[id]? = some t₀ ∧ t₀.retiring = t.retiring ∧
      t₀.target = t.target := by
  have hmodify : ∀ {k : Nat} {f : ExecTransaction → ExecTransaction},
      (m.execTransactions.modify k f)[id]? = some t →
      (∀ u : ExecTransaction, u.retiring = (f u).retiring ∧ u.target = (f u).target) →
      ∃ t₀ : ExecTransaction, m.execTransactions[id]? = some t₀ ∧ t₀.retiring = t.retiring ∧
        t₀.target = t.target := by
    intro k f hu hf
    rw [get_modify] at hu
    split at hu
    · obtain ⟨u, hu₀, rfl⟩ := Option.map_eq_some_iff.mp hu
      exact ⟨u, hu₀, hf u⟩
    · exact ⟨t, hu, rfl, rfl⟩
  cases hchange with
  | abortFork hevent hu hpending =>
    rw [abortTransaction_of_pending hu hpending] at ht
    exact ⟨t, ht, rfl, rfl⟩
  | abortExec hu hpending =>
    rw [abortExecTransaction_of_pending hu hpending] at ht
    exact hmodify ht (by intro _; exact ⟨rfl, rfl⟩)
  | noteExit => exact hmodify ht (by intro _; exact ⟨rfl, rfl⟩)
  | promote | endProcess => exact ⟨t, (get_filter_eq_some.mp ht).1, rfl, rfl⟩
  | collect | release | dropClient | forgetRetired => exact ⟨t, ht, rfl, rfl⟩
  | _ => exact absurd ‹Event.Asks _› hends

theorem strands_back (hends : ¬ e.Asks) (hc : Coherent m) (hchange : Change e m m')
    (hstrands : e.Strands m') : e.Strands m := by
  obtain ⟨i, pid, id, t, ht, hretiring, hclient, hdrops, j, hopen⟩ := hstrands
  have hbefore := candidate_back hends hchange hclient
  obtain ⟨t₀, ht₀, hretiring₀, htarget⟩ := exec_back hends hchange ht
  refine ⟨i, pid, id, t₀, ht₀, hretiring₀.trans hretiring, by rw [hbefore, htarget], ?_, j,
    (unfinished_change hc hchange hopen).resolve_right fun hask => hends hask.1⟩
  rcases hdrops with rfl | ⟨c, status, hcl, rfl⟩
  · exact .inl rfl
  · obtain rfl := Option.some.inj (hclient.symm.trans hcl)
    exact .inr ⟨_, status, hbefore, rfl⟩

theorem StateManager.Guarded.ends (h : m.Guarded) (hc : Coherent m) (hends : ¬ e.Asks)
    (hkept : ¬ e.Strands m) (hsteps : Steps e m m') : m'.Guarded :=
  (hsteps.preserves (P := fun m => Coherent m ∧ m.Guarded ∧ ¬ e.Strands m)
    (fun _ _ hm hchange => ⟨hm.1.change hchange, hm.2.1.change hm.1 hm.2.2 hchange,
      fun hstrands => hm.2.2 (strands_back hends hm.1 hchange hstrands)⟩) ⟨hc, h, hkept⟩).2.1

/-! ## Every call -/

theorem StateManager.Guarded.exit (h : m.Guarded) (hc : Coherent m) {peer : PeerIdentity}
    {status : Int} (hkept : ¬ (Event.processExited peer status).Strands m) :
    (step m (.processExited peer status)).Guarded := by
  obtain ⟨hsweep, hcurrent⟩ := afterSweep_spec peer status hc
  have hsettle := settleExit_steps status (hc.steps hsweep) hcurrent
  rcases current_or_replaced m peer with hnone | ⟨id, t, ht, hretiring, rfl⟩
  · rw [step_exit_of_current hc hnone]
    exact h.ends hc (not_asks_processExited _ _) hkept (hsweep.trans hsettle)
  rw [step_exit_of_replaced hc ht hretiring]
  rw [afterSweep_owner hc ht hretiring rfl] at hsweep hsettle
  have hfirst := h.ends hc (not_asks_processExited _ _) hkept (hsweep.trans hsettle)
  have hidle : ((m.promote t).settleExit t.ownerPeer status).Idle t.target :=
    (promote_idle hc ht).steps hsettle
  have hc' := hc.steps (hsweep.trans hsettle)
  unfold StateManager.takeOver
  cases t.candidateExit with
  | none => exact hfirst
  | some exit =>
    refine hfirst.ends hc' (not_asks_processExited _ _) ?_ (settleExit_steps exit hc' hidle.current)
    -- The replacement is no candidate any more.
    rintro ⟨i, pid, k, u, hu, huretiring, hclient, hdrops, -⟩
    rcases hdrops with heq | ⟨c, other, hcl, heq⟩
    · cases heq
    · obtain rfl := Option.some.inj (hclient.symm.trans hcl)
      injection heq with htarget
      exact hidle k u hu huretiring (.inl htarget.symm)

theorem StateManager.Guarded.step (h : m.Guarded) (hsound : Sound m) (hkept : ¬ e.Strands m) :
    (Manager.step m e).Guarded := by
  have hc := hsound.coherent
  by_cases hasks : e.Asks
  · rcases effect_of_step hc hsound.collected hasks with hsame | hchange | ⟨m₁, hchange, hsame⟩
    · rw [hsame]
      exact h
    · exact h.change hc hkept hchange
    · rw [hsame]
      change m₁.Guarded
      exact h.change hc hkept hchange
  · cases e with
    | disconnect client => exact h.ends hc hasks hkept (disconnect_steps hc (.inl rfl))
    | processExited peer status => exact h.exit hc hkept
    | _ => exact (hasks inferInstance).elim

/-! ## Every state of a run -/

/-- Unfinished forks can be finished, and aborted ones hold nothing. -/
structure ForksCancelled (m : StateManager) : Prop where
  parentLive : ∀ {id : Nat} {t : Transaction}, m.transactions[id]? = some t →
    t.state.terminal = false → ∃ p : Process, m.processes[t.parent]? = some p
  guarded : ∀ {id : Nat} {t : Transaction}, m.transactions[id]? = some t →
    t.state.terminal = false → ∃ i : ClientId, m.Guards i t.parent
  cancelled : ∀ {id : Nat} {t : Transaction}, m.transactions[id]? = some t →
    (∀ i : ClientId, ¬ m.Guards i t.parent) → t.state ≠ .committed →
    t.state = .aborted ∧ t.snapshot = none

theorem forksCancelled_of_guarded (hc : Coherent m) (h : m.Guarded) : ForksCancelled m where
  parentLive ht _ := by
    obtain ⟨p, hp, -⟩ := hc.parent_live ht
    exact ⟨p, hp⟩
  guarded ht hpending := h _ _ ⟨_, ht, rfl, hpending⟩
  cancelled {id t} ht hnobody hcommitted := by
    have hterminal : t.state.terminal = true := by
      by_contra hpending
      obtain ⟨i, hguards⟩ := h id t.parent ⟨t, ht, rfl, by simpa using hpending⟩
      exact hnobody i hguards
    have haborted : t.state = .aborted := by
      cases hstate : t.state <;> simp_all [TransactionState.terminal]
    have hphase := hc.phases.phase ht
    simp only [Transaction.Phase, haborted] at hphase
    exact ⟨haborted, hphase.1⟩

/-- Over every run in which no candidate of a committed exec is lost while its process
has an unfinished fork, end of file cancels the unfinished forks. -/
theorem forks_cancelled (h : Initial m) {inputs : List Event}
    (hkept : EveryStep step (fun m e => ¬ e.Strands m) m inputs) :
    EveryState step ForksCancelled m inputs := by
  have hguarded : m.Guarded := by
    rintro id pid ⟨t, ht, -⟩
    cases h <;> exact nomatch Std.ExtTreeMap.getElem?_empty.symm.trans ht
  exact (EveryState.of_preserved (P := fun m => Sound m ∧ m.Guarded)
    (fun _ e hm hok => ⟨hm.1.step e, hm.2.step hm.1 hok⟩) ⟨.initial h, hguarded⟩ hkept).mono
    fun _ hm => forksCancelled_of_guarded hm.1.coherent hm.2

/-! ## A fork nobody can finish -/

/-- A worker reserves a fork and an exec, and commits the exec. -/
def smallHandOver : List Event :=
  [.connect (smallHello .worker none) ⟨10, 1⟩,
    .handle 1 (.prepareFork 5) (some (Vector.replicate 32 0)),
    .handle 1 (.prepareExec 6 20 1) none,
    .connect (smallHello .worker none) ⟨20, 1⟩,
    .handle 2 .markReady none,
    .handle 1 (.commitExec 2) none]

/-- The candidate hangs up, then the retired image, and then the retired image dies. -/
def smallHangUp : List Event :=
  smallHandOver ++ [.disconnect 2, .disconnect 1, .processExited ⟨10, 1⟩ 0]

theorem forks_cancelled_smallFamily : EveryState step ForksCancelled smallManager smallFamily := by
  refine forks_cancelled (.withLimits 1 "k" Limits.default) ?_
  have hasks : ∀ {e : Event} {m : StateManager}, e.Asks → ¬ e.Strands m := by
    rintro e m hasks ⟨i, -, -, -, -, -, -, hdrops, -⟩
    rcases hdrops with rfl | ⟨c, status, -, rfl⟩
    · exact not_asks_disconnect _ hasks
    · exact not_asks_processExited _ _ hasks
  exact ⟨hasks inferInstance, hasks inferInstance, hasks inferInstance, hasks inferInstance,
    hasks inferInstance, trivial⟩

/-- Every connection has ended, and the fork is still prepared. -/
theorem stranded_fork : ReachableState (run step smallManager smallHangUp) ∧
    anyValue (run step smallManager smallHangUp).clients (fun _ => true) = false ∧
    column (run step smallManager smallHangUp).transactions Transaction.state 1 = some .prepared ∧
    ¬ ForksCancelled (run step smallManager smallHangUp) := by
  have hnobody : anyValue (run step smallManager smallHangUp).clients (fun _ => true) = false := by
    decide +kernel
  have hprepared : column (run step smallManager smallHangUp).transactions Transaction.state 1 =
      some .prepared := by decide +kernel
  refine ⟨smallManager_reaches smallHangUp, hnobody, hprepared, fun hforks => ?_⟩
  obtain ⟨t, ht, hstate⟩ := column_eq_some.mp hprepared
  obtain ⟨i, hguards⟩ := hforks.guarded ht (by rw [hstate]; rfl)
  obtain ⟨c, hclient⟩ := hguards.client
  exact nomatch anyValue_eq_false.mp hnobody i c hclient

end Kinakaze.Manager
