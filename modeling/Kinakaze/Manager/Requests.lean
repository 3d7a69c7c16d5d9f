import Kinakaze.Manager.Copying

/-!
# Requests are atomic

A request validates everything before it changes anything.  Each lemma below
says of one function of the manager that it is rejected without a trace or has
one effect of the list `Change`; in particular none of its `unwrap`s fails.
-/

namespace Kinakaze.Manager

open Kinakaze.Library Kinakaze.Protocol

set_option linter.unusedSectionVars false

/-- An answer with an error, and nothing changed. -/
def Rejected (m : StateManager) (fault : Fault) (m' : StateManager) : Prop :=
  (∃ answer : RpcError, fault = .rejected answer) ∧ m' = m

/-- No effect or one, possibly followed by a collection. -/
def Effect (e : Event) (m m' : StateManager) : Prop :=
  m' = m ∨ Change e m m' ∨ ∃ m₁ : StateManager, Change e m m₁ ∧ m' = m₁.collectObjects

/-- The call has an effect of `e`, or is rejected without one. -/
abbrev Atomic {α : Type} (e : Event) (m : StateManager) (call : Rpc α) : Prop :=
  wp call (fun _ => Effect e m) (Rejected m) m

/-! ## Rules for the checks of a request -/

section Rules

variable {α β : Type} {m : StateManager} {onOk : β → StateManager → Prop}

theorem rejected_error (m : StateManager) (code : ErrorCode) (message : String) :
    Rejected m (error code message) m :=
  ⟨⟨⟨code, message⟩, rfl⟩, rfl⟩

theorem wp_reject (code : ErrorCode) (message : String) :
    wp (throw (error code message)) onOk (Rejected m) m :=
  rejected_error m code message

theorem wp_check {bad : Prop} [Decidable bad] {code : ErrorCode} {message : String}
    {next : PUnit → Rpc β} (h : ¬bad → wp (next ⟨⟩) onOk (Rejected m) m) :
    wp (failIf bad (error code message) >>= next) onOk (Rejected m) m := by
  rw [wp_bind, wp_failIf]
  exact ⟨fun _ => rejected_error m code message, h⟩

theorem wp_lookup {found : Option α} {code : ErrorCode} {message : String}
    {next : α → Rpc β} (h : ∀ a : α, found = some a → wp (next a) onOk (Rejected m) m) :
    wp (require found (error code message) >>= next) onOk (Rejected m) m := by
  rw [wp_bind, wp_require]
  exact ⟨fun _ => rejected_error m code message, h⟩

variable {onError : Fault → StateManager → Prop}

theorem wp_unwrap {found : Option α} {a : α} {site : String} {next : α → Rpc β} (hfound : found = some a)
    (h : wp (next a) onOk onError m) : wp (unwrap found site >>= next) onOk onError m := by
  rw [unwrap, hfound]
  exact h

theorem wp_read {next : StateManager → Rpc β}
    (h : wp (next m) onOk onError m) : wp (get >>= next) onOk onError m := h

theorem wp_write {m' : StateManager} {next : PUnit → Rpc β} (h : wp (next ⟨⟩) onOk onError m') :
    wp (set m' >>= next) onOk onError m := h

end Rules

variable {m : StateManager} {e : Event} [e.Asks] {client : ClientId} {pid : Nat} {p : Process}

theorem Effect.refl (e : Event) (m : StateManager) : Effect e m m := .inl rfl

theorem Effect.of_change {m' : StateManager} (h : Change e m m') : Effect e m m' :=
  .inr (.inl h)

theorem active_of (haborted : p.state ≠ .aborted)
    (hpending : ¬ p.state.isPending = true) : p.state = .active := by
  cases hs : p.state with
  | active => rfl
  | pending id => rw [hs] at hpending; exact absurd rfl hpending
  | aborted => exact absurd hs haborted

/-! ## Module state -/

theorem registerModule_atomic (ho : m.Owns client pid p) (haborted : p.state ≠ .aborted)
    (moduleId schema : Nat) : Atomic e m (registerModule pid moduleId schema) := by
  refine wp_read (wp_unwrap ho.process ?_)
  split
  · exact wp_check fun _ => .refl e m
  · next hnew =>
    refine wp_check fun hpending => ?_
    have hactive := active_of haborted hpending
    split
    · next existing hexisting =>
      refine wp_check fun hschema => .of_change (.addModule ho hactive hnew (.inl ?_))
      rw [hexisting, not_not.mp hschema]
    · next hnone =>
      exact wp_check fun hroom =>
        .of_change (.addModule ho hactive hnew (.inr ⟨hnone, Nat.lt_of_not_le hroom⟩))

variable {β : Type} {name : String} {onOk : β → StateManager → Prop} {next : PUnit → Rpc β}

theorem wp_validateName (h : wp (next ⟨⟩) onOk (Rejected m) m) :
    wp (validateName name >>= next) onOk (Rejected m) m := by
  rw [wp_bind]
  refine wp_read (wp_check fun _ => ?_)
  rw [wp_failIf]
  exact ⟨fun _ => rejected_error m _ _, fun _ => h⟩

theorem wp_checkObjectCapacity {count : Nat}
    (h : m.objects.size + count ≤ m.limits.maxObjects → wp (next ⟨⟩) onOk (Rejected m) m) :
    wp (checkObjectCapacity count >>= next) onOk (Rejected m) m := by
  rw [wp_bind]
  refine wp_read ?_
  rw [wp_failIf]
  exact ⟨fun _ => rejected_error m _ _, fun hroom => h (by omega)⟩

theorem defineState_atomic (h : Coherent m) (ho : m.Owns client pid p)
    (hactive : p.state = .active) (moduleId : Nat) (name : String) (initial : Nat)
    (fork : ForkPolicy) : Atomic e m (defineState pid moduleId name initial fork) := by
  refine wp_validateName (wp_read (wp_unwrap ho.process (wp_check fun _ => ?_)))
  split
  · next objectId hkey =>
    obtain ⟨o, hobject⟩ := h.object_of_key ho.process hkey
    exact wp_unwrap hobject (wp_check fun _ => .refl e m)
  · next hnew =>
    exact wp_check fun _ => wp_checkObjectCapacity fun hroom =>
      .of_change (.addState ho hactive hnew hroom)

theorem wp_stateObject {moduleId : Nat} {next : Nat → Rpc β} (ho : m.Owns client pid p)
    (h : ∀ id : Nat, p.snapshot.states[(moduleId, name)]? = some id →
      wp (next id) onOk (Rejected m) m) :
    wp (stateObject pid moduleId name >>= next) onOk (Rejected m) m := by
  rw [wp_bind]
  refine wp_validateName (wp_read (wp_unwrap ho.process ?_))
  rw [wp_require]
  exact ⟨fun _ => rejected_error m _ _, h⟩

theorem readState_atomic (h : Coherent m) (ho : m.Owns client pid p) (moduleId : Nat)
    (name : String) : Atomic e m (readState pid moduleId name) := by
  refine wp_stateObject ho fun id hkey => wp_read ?_
  obtain ⟨o, hobject⟩ := h.object_of_key ho.process hkey
  exact wp_unwrap hobject (.refl e m)

theorem writeState_atomic (h : Coherent m) (ho : m.Owns client pid p)
    (hactive : p.state = .active) (moduleId : Nat) (name : String) (value : Nat) (entropy : Entropy)
    (he : e = .handle client (.writeState moduleId name value) entropy) :
    Atomic e m (writeState pid moduleId name value) := by
  refine wp_stateObject ho fun id hkey => wp_read ?_
  obtain ⟨o, hobject⟩ := h.object_of_key ho.process hkey
  exact wp_unwrap hobject (.of_change (.setValue he ho hactive hkey))

/-! ## Fork transactions -/

theorem wp_checkProcessCapacity
    (h : m.processes.size + m.reservedProcesses < m.limits.maxProcesses →
      wp (next ⟨⟩) onOk (Rejected m) m) :
    wp (checkProcessCapacity >>= next) onOk (Rejected m) m := by
  rw [wp_bind]
  refine wp_read ?_
  rw [wp_failIf]
  refine ⟨fun _ => rejected_error m _ _, fun hroom => h ?_⟩
  have hrange := m.limits.inRange.2.1
  omega

theorem wp_secureTicket {entropy : Entropy}
    {next : String → Rpc β} (h : ∀ token : String, wp (next token) onOk (Rejected m) m) :
    wp (secureTicket entropy >>= next) onOk (Rejected m) m := by
  rw [wp_bind]
  exact wp_lookup fun bytes _ => h _

theorem wp_allocateIdentity {parentPid : Nat} {next : ProcessIdentity → Rpc β}
    (h : m.nextPid ≤ i32Max → wp (next ⟨m.epoch, m.nextPid, 1, parentPid⟩) onOk (Rejected m)
      { m with nextPid := m.nextPid + 1 }) :
    wp (allocateIdentity parentPid >>= next) onOk (Rejected m) m := by
  rw [wp_bind]
  exact wp_read (wp_check fun hpids => wp_write (h (Nat.le_of_not_lt hpids)))

theorem countP_eq_forkedCount {entries : List (StateKey × Nat)} {found : List Object}
    {objects : Table Object}
    (h : List.Forall₂ (fun id o => objects[id]? = some o) (entries.map Prod.snd) found) :
    found.countP (fun o => o.fork != .share) = forkedCount objects entries := by
  induction entries generalizing found with
  | nil => cases h; rfl
  | cons entry entries ih =>
    cases h with
    | cons ho hrest =>
      rw [List.countP_cons, ih hrest, forkedCount, forkedCount, List.countP_cons]
      simp only [ho]

/-- The objects of a process are there. -/
theorem wp_storedObjects (h : Coherent m) (ho : m.Owns client pid p) {what : String}
    {next : List Object → Rpc β} (hnext : ∀ found : List Object,
      List.Forall₂ (fun id o => m.objects[id]? = some o) (valuesOf p.snapshot.states) found →
        wp (next found) onOk onError m) :
    wp ((valuesOf p.snapshot.states).mapM (fun id => unwrap m.objects[id]? what) >>= next)
      onOk onError m := by
  rw [wp_bind]
  refine wp_mono (wp_mapM (P := fun id o => m.objects[id]? = some o) fun id hid => ?_)
    (fun found m₁ hfound => ?_) fun _ _ hf => hf
  · obtain ⟨key, hstate⟩ := mem_valuesOf.mp hid
    obtain ⟨o, hobject⟩ := h.object_of_key ho.process hstate
    rw [unwrap, hobject]
    exact ⟨rfl, rfl⟩
  obtain ⟨rfl, hfound⟩ := hfound
  exact hnext found hfound

theorem prepareFork_atomic (h : Coherent m) (ho : m.Owns client pid p)
    (hactive : p.state = .active) (requestKey parentPid : Nat) (entropy : Entropy)
    (hparent : parentPid = pid ∨ parentPid = p.identity.parentPid) :
    Atomic e m (prepareFork pid requestKey parentPid entropy) := by
  refine wp_read (wp_unwrap ho.process ?_)
  split
  · next id hkey =>
    obtain ⟨t, ht, -⟩ := h.fork_of_key ho.process hkey
    exact wp_unwrap ht (wp_check fun _ => wp_check fun _ => .refl e m)
  · next hkey =>
    refine wp_check fun hkeys => wp_check fun hroom => wp_checkProcessCapacity fun hprocesses => ?_
    refine wp_storedObjects h ho fun found hfound => wp_checkObjectCapacity fun hobjects =>
      wp_secureTicket fun token => wp_allocateIdentity fun hpids => ?_
    have hdefined : ∀ {key : StateKey} {id : Nat}, p.snapshot.states[key]? = some id →
        ∃ o : Object, m.objects[id]? = some o := fun hstate => h.object_of_key ho.process hstate
    rw [wp_bind]
    refine wp_mono (copyStates_spec hdefined (m := { m with nextPid := m.nextPid + 1 })
      (.start hdefined h.numbering.object)) (fun states m₂ hdone => ?_) fun _ _ hf => hf.elim
    obtain ⟨hframe, hcopied, hsize⟩ := hdone
    rw [countP_eq_forkedCount hfound] at hobjects
    refine wp_read (wp_write (.of_change ?_))
    rw [hframe]
    exact .reserveFork ho hactive hkey hparent (by omega) (by omega) hprocesses hpids hcopied
      (Nat.le_trans hsize hobjects)

theorem markReady_atomic (h : Coherent m) (ho : m.Owns client pid p)
    (haborted : p.state ≠ .aborted) : Atomic e m (markReady pid) := by
  refine wp_read (wp_unwrap ho.process ?_)
  split
  · next id hpending =>
    obtain ⟨t, ht, -⟩ := h.pending_transaction ho.process hpending
    exact wp_unwrap ht (wp_write (.of_change (.forkReady ho hpending)))
  · exact .refl e m
  · next hstate => exact absurd hstate haborted

variable {id : Nat}

theorem wp_ownedTransaction {next : Transaction → Rpc β}
    (h : ∀ t : Transaction, m.transactions[id]? = some t → t.parent = pid →
      wp (next t) onOk (Rejected m) m) :
    wp (ownedTransaction pid id >>= next) onOk (Rejected m) m := by
  rw [wp_bind]
  exact wp_read (wp_lookup fun t ht => wp_check fun hparent => h t ht (not_not.mp hparent))

theorem awaitForkReady_atomic (id : Nat) : Atomic e m (awaitForkReady pid id) := by
  refine wp_ownedTransaction fun t ht hparent => ?_
  cases t.state with
  | ready | committed => exact .refl e m
  | aborted | prepared | adopted => exact wp_reject _ _

theorem nativeFork_atomic (id : Nat) (spec : Spec) : Atomic e m (nativeFork pid id spec) :=
  wp_check fun _ => wp_ownedTransaction fun _ _ _ => wp_check fun _ => .refl e m

theorem commitFork_atomic (h : Coherent m) (ho : m.Owns client pid p) (id : Nat) :
    Atomic e m (commitFork pid id) := by
  refine wp_ownedTransaction fun t ht hparent => ?_
  cases hstate : t.state with
  | ready =>
    obtain ⟨child, hchild⟩ := h.child_live ht hstate
    exact wp_read (wp_unwrap hchild (wp_write (.of_change (.commitFork ho ht hparent hstate))))
  | committed => exact .refl e m
  | aborted | prepared | adopted => exact wp_reject _ _

theorem collectObjects_eq_self (hcollected : m.collected) : m.collectObjects = m := by
  have hobjects : m.objects.filter (fun id _ => m.liveObjects.contains id) = m.objects :=
    filter_eq_self fun id o ho => by
      rw [List.contains_iff_mem, mem_liveObjects]
      exact hcollected id o ho
  rw [StateManager.collectObjects, hobjects]

theorem abortFork_atomic (hcollected : m.collected) (id : Nat) (he : e.Collects) :
    Atomic e m (abortFork pid id) := by
  refine wp_ownedTransaction fun t ht hparent => wp_check fun hcommitted => ?_
  change Effect e m (m.abortTransaction id).collectObjects
  by_cases hterminal : t.state.terminal = true
  · rw [abortTransaction_of_not_pending fun u hu => by
      rwa [← Option.some.inj (ht.symm.trans hu)], collectObjects_eq_self hcollected]
    exact .refl e m
  · have hpending : t.state.terminal = false := by simpa using hterminal
    exact .inr (.inr ⟨_, .abortFork he ht hpending, rfl⟩)

/-! ## Exec transactions -/

theorem prepareExec_atomic (h : Coherent m) (ho : m.Owns client pid p)
    (hactive : p.state = .active) (requestKey : Nat) (target : PeerIdentity) :
    Atomic e m (prepareExec client pid requestKey target) := by
  refine wp_read (wp_unwrap ho.process ?_)
  split
  · next id hkey =>
    obtain ⟨t, ht, -⟩ := h.exec_of_key ho.process hkey
    exact wp_unwrap ht (wp_check fun _ => wp_check fun _ => .refl e m)
  · next hkey =>
    refine wp_check fun _ => wp_check fun hidle => wp_check fun hused => wp_check fun hkeys =>
      wp_check fun hroom => wp_write (.of_change ?_)
    simp only [not_or, Bool.not_eq_true, anyValue_eq_false, beq_eq_false_iff_ne] at hused
    obtain ⟨hprocess, hclient, hretired, htarget⟩ := hused
    refine .addExec ho hactive hkey (fun i u hu hpid => ?_) ⟨fun q hq => ?_, ?_, hretired⟩
      htarget hclient (by omega) (by omega) (by omega)
    · have hterminal : ∀ (i : Nat) (u : ExecTransaction), m.execTransactions[i]? = some u →
          u.process = pid → u.state.terminal = true := by simpa using hidle
      exact hterminal i u hu hpid
    · obtain ⟨p', hp', hpeer⟩ := column_eq_some.mp hq
      exact hprocess q p' hp' hpeer
    · intro i c hc hpeer
      exact absurd hpeer (hclient i c hc)

theorem wp_ownedExec {next : ExecTransaction → Rpc β}
    (h : ∀ t : ExecTransaction, m.execTransactions[id]? = some t → t.process = pid →
      t.owner = client → wp (next t) onOk (Rejected m) m) :
    wp (ownedExec client pid id >>= next) onOk (Rejected m) m := by
  rw [wp_bind]
  refine wp_read (wp_lookup fun t ht => wp_check fun howned => ?_)
  obtain ⟨hprocess, howner⟩ := not_or.mp howned
  exact h t ht (not_not.mp hprocess) (not_not.mp howner)

theorem awaitExecReady_atomic (id : Nat) : Atomic e m (awaitExecReady client pid id) := by
  refine wp_ownedExec fun t ht hprocess howner => ?_
  cases t.state with
  | ready | committed => exact .refl e m
  | aborted | prepared | adopted => exact wp_reject _ _

theorem commitExec_atomic (h : Coherent m) (id : Nat) (entropy : Entropy)
    (he : e = .handle client (.commitExec id) entropy) : Atomic e m (commitExec client pid id) := by
  refine wp_ownedExec fun t ht hprocess howner => ?_
  cases hstate : t.state with
  | ready =>
    have hclient := h.authority.pendingOwner ht (by rw [hstate]; rfl)
    rw [howner, hprocess] at hclient
    obtain ⟨p, ho, -⟩ := h.owns hclient
    exact wp_read (wp_unwrap ho.process (wp_unwrap hclient (wp_write
      (.of_change (.commitExec he ho ht hprocess howner hstate)))))
  | committed => exact .refl e m
  | aborted | prepared | adopted => exact wp_reject _ _

theorem abortExec_atomic (id : Nat) : Atomic e m (abortExec client pid id) := by
  refine wp_ownedExec fun t ht hprocess howner => wp_check fun hcommitted => ?_
  change Effect e m (m.abortExecTransaction id)
  by_cases hterminal : t.state.terminal = true
  · rw [abortExecTransaction_of_not_pending fun u hu => by
      rwa [← Option.some.inj (ht.symm.trans hu)]]
    exact .refl e m
  · exact .of_change (.abortExec ht (by simpa using hterminal))

variable {peer : PeerIdentity}

theorem handleExecCandidate_atomic
    (hclient : m.clients[client]? = some ⟨peer, .execCandidate pid id⟩) (request : Request) :
    Atomic e m (handleExecCandidate client pid id request) := by
  refine wp_read (wp_lookup fun t ht => wp_check fun haborted => wp_check fun hattached =>
    wp_lookup fun p hp => ?_)
  obtain ⟨-, hcandidate⟩ := not_or.mp hattached
  cases request
  case identity => exact .refl e m
  case imageSnapshot => exact .refl e m
  case nativeCatalog => exact .refl e m
  case kernel command =>
    cases command <;> first | exact .refl e m | exact wp_reject _ _
  case registerModule moduleId schema =>
    dsimp only
    split
    · exact wp_check fun _ => .refl e m
    · exact wp_reject _ _
  case markReady =>
    dsimp only
    split
    · next hcommitted =>
      refine .of_change (.execReady hclient ht (not_not.mp hcandidate) ?_)
      cases hstate : t.state <;> simp_all [TransactionState.terminal]
    · exact .refl e m
  all_goals exact wp_reject _ _

/-! ## The pool -/

theorem markPrewarmReady_atomic (ho : m.Owns client pid p) : Atomic e m (markPrewarmReady pid) := by
  refine wp_read (wp_unwrap ho.process (wp_check fun hunused => wp_write (.of_change ?_)))
  obtain ⟨hroot, hfrom⟩ := not_or.mp hunused
  exact .park ho.process (.markPrewarmReady ho (by simpa using hroot) (not_not.mp hfrom))

theorem awaitPrewarmActivation_atomic (ho : m.Owns client pid p) :
    Atomic e m (awaitPrewarmActivation pid) := by
  refine wp_read (wp_unwrap ho.process ?_)
  split
  · exact .refl e m
  · exact wp_reject _ _
  · exact wp_reject _ _

theorem markPoolReady_atomic (ho : m.Owns client pid p) (hactive : p.state = .active) :
    Atomic e m (markPoolReady pid) := by
  refine wp_read (wp_unwrap ho.process (wp_check fun hunused => wp_write (.of_change ?_)))
  obtain ⟨hroot, hfrom⟩ := not_or.mp hunused
  exact .park ho.process (.markPoolReady ho hactive (by simpa using hroot) (not_not.mp hfrom))

theorem awaitPoolActivation_atomic (ho : m.Owns client pid p) :
    Atomic e m (awaitPoolActivation pid) := by
  refine wp_read (wp_unwrap ho.process ?_)
  split
  · exact .refl e m
  · exact wp_reject _ _
  · exact wp_reject _ _
  · exact wp_reject _ _

theorem prewarmReady_atomic (target : Nat) : Atomic e m (prewarmReady target) := by
  refine wp_read (wp_check fun _ => wp_lookup fun q _ => ?_)
  split
  · exact wp_reject _ _
  · exact .refl e m
  · exact .refl e m
  · exact wp_reject _ _

theorem activatePrewarm_atomic (target : Nat) : Atomic e m (activatePrewarm target) :=
  wp_read (wp_lookup fun q hq => wp_check fun hfrom =>
    wp_write (.of_change (.park hq (.activatePrewarm (not_not.mp hfrom)))))

theorem awaitPoolReady_atomic (minimum : Nat) : Atomic e m (awaitPoolReady minimum) :=
  wp_check fun _ => wp_read (wp_check fun _ => .refl e m)

variable {c : Client}

theorem reservePoolWorker_atomic (hclient : m.clients[client]? = some c)
    (hcontrol : c.kind.isControl = true) : Atomic e m (reservePoolWorker client) := by
  refine wp_read (wp_lookup fun found hfound => wp_write (.of_change ?_))
  obtain ⟨hq, hready⟩ := findEntry_some hfound
  exact .park hq (.reserve hclient hcontrol (by simpa using hready))

theorem releasePoolWorker_atomic (target : Nat) : Atomic e m (releasePoolWorker client target) :=
  wp_read (wp_lookup fun q hq => wp_check fun hfrom =>
    wp_write (.of_change (.park hq (.release (not_not.mp hfrom)))))

theorem activatePoolWorker_atomic (hclient : m.clients[client]? = some c)
    (hcontrol : c.kind.isControl = true) (target parentPid : Nat) (launch : PoolLaunch)
    (he : parentPid = 0 ∨ ∃ entropy : Entropy,
      e = .handle client (.activatePoolWorkerUnderParent target parentPid launch) entropy) :
    Atomic e m (activatePoolWorker client target parentPid launch) := by
  refine wp_check fun _ => wp_check fun hself => wp_read (wp_lookup fun q hq => ?_)
  split
  · exact wp_check fun _ => .refl e m
  refine wp_check fun hfrom => ?_
  have hbind : ∀ _ : parentPid = 0 ∨ ∃ r : Process, m.processes[parentPid]? = some r,
      Effect e m (m.bindLaunch target parentPid client launch) := fun hparent =>
    .of_change (.bindLaunch he hclient hcontrol hq (not_not.mp hfrom) hself hparent)
  split
  · exact wp_lookup fun r hr => wp_check fun _ => hbind (.inr ⟨r, hr⟩)
  · next hroot => exact hbind (.inl (not_not.mp hroot))

theorem processMemoryTarget_atomic (caller target : Nat) :
    Atomic e m (processMemoryTarget caller target) :=
  wp_check fun _ => wp_read (wp_lookup fun _ _ => wp_check fun _ => wp_check fun _ => .refl e m)

/-! ## Dispatch -/

theorem awaitExit_atomic (target : Nat) : Atomic e m (awaitExit target) := by
  refine wp_check fun _ => wp_read ?_
  split
  · exact .refl e m
  · exact wp_check fun _ => wp_reject _ _

theorem handleControl_atomic (hclient : m.clients[client]? = some c)
    (hcontrol : c.kind.isControl = true) (request : Request) (entropy : Entropy)
    (he : e = .handle client request entropy) : Atomic e m (handleControl client request) := by
  refine wp_read ?_
  cases request
  case stats => exact .refl e m
  case awaitExit target => exact awaitExit_atomic target
  case awaitPrewarmReady target => exact prewarmReady_atomic target
  case activatePrewarm target => exact activatePrewarm_atomic target
  case awaitPoolReady minimum => exact awaitPoolReady_atomic minimum
  case reservePoolWorker => exact reservePoolWorker_atomic hclient hcontrol
  case releasePoolWorker target => exact releasePoolWorker_atomic target
  case activatePoolWorker target launch =>
    exact activatePoolWorker_atomic hclient hcontrol target 0 launch (.inl rfl)
  case activatePoolWorkerUnderParent target parentPid launch =>
    exact activatePoolWorker_atomic hclient hcontrol target parentPid launch (.inr ⟨entropy, he⟩)
  case shutdown => exact .of_change .shutdown
  all_goals exact wp_reject _ _

theorem prepareForkWithParent_atomic (h : Coherent m) (ho : m.Owns client pid p)
    (hactive : p.state = .active) (requestKey parentPid : Nat) (entropy : Entropy) :
    Atomic e m (prepareForkWithParent pid requestKey parentPid entropy) :=
  wp_check fun _ => wp_read (wp_unwrap ho.process (wp_check fun hparent =>
    prepareFork_atomic h ho hactive requestKey parentPid entropy (.inr (not_not.mp hparent).symm)))

theorem awaitActivation_atomic (ho : m.Owns client pid p) : Atomic e m (awaitActivation pid) :=
  wp_read (wp_unwrap ho.process (wp_check fun _ => .refl e m))

theorem handleOwner_atomic (h : Coherent m) (hcollected : m.collected)
    (ho : m.Owns client pid p) (haborted : p.state ≠ .aborted) (request : Request)
    (hadmitted : p.state = .active ∨ pendingMay request = true)
    (hworker : controlOnly request = false) (hidentity : request ≠ .identity)
    (hhello : isHello request = false) (entropy : Entropy)
    (he : e = .handle client request entropy) :
    Atomic e m (handleOwner client pid request entropy) := by
  refine wp_read ?_
  have hactive : pendingMay request = false → p.state = .active := by
    intro hnot
    rcases hadmitted with hactive | hmay
    · exact hactive
    · rw [hnot] at hmay
      cases hmay
  cases request
  case nativeFork id spec => exact nativeFork_atomic id spec
  case nativeExec => exact .refl e m
  case imageSnapshot => exact .refl e m
  case nativeCatalog => exact .refl e m
  case kernel command => exact .refl e m
  case markPrewarmReady => exact markPrewarmReady_atomic ho
  case awaitPrewarmActivation => exact awaitPrewarmActivation_atomic ho
  case markPoolReady => exact markPoolReady_atomic ho (hactive rfl)
  case awaitPoolActivation => exact awaitPoolActivation_atomic ho
  case processMemoryTarget target write => exact processMemoryTarget_atomic pid target
  case registerModule moduleId schema => exact registerModule_atomic ho haborted moduleId schema
  case defineState moduleId name initial fork =>
    exact defineState_atomic h ho (hactive rfl) moduleId name initial fork
  case readState moduleId name => exact readState_atomic h ho moduleId name
  case writeState moduleId name value =>
    exact writeState_atomic h ho (hactive rfl) moduleId name value entropy he
  case prepareFork requestKey =>
    exact prepareFork_atomic h ho (hactive rfl) requestKey pid entropy (.inl rfl)
  case prepareForkWithParent requestKey parentPid =>
    exact prepareForkWithParent_atomic h ho (hactive rfl) requestKey parentPid entropy
  case markReady => exact markReady_atomic h ho haborted
  case awaitActivation => exact awaitActivation_atomic ho
  case commitFork id => exact commitFork_atomic h ho id
  case awaitForkReady id => exact awaitForkReady_atomic id
  case abortFork id => exact abortFork_atomic hcollected id (by rw [he]; trivial)
  case prepareExec requestKey hostPid birth =>
    exact prepareExec_atomic h ho (hactive rfl) requestKey ⟨hostPid, birth⟩
  case awaitExecReady id => exact awaitExecReady_atomic id
  case commitExec id => exact commitExec_atomic h id entropy he
  case abortExec id => exact abortExec_atomic id
  case stats => exact .refl e m
  case shutdown => exact wp_reject _ _
  case identity => exact absurd rfl hidentity
  case hello => cases hhello
  all_goals cases hworker

theorem handleWorker_atomic (h : Coherent m) (hcollected : m.collected)
    (hclient : m.clients[client]? = some ⟨peer, .worker pid⟩) (request : Request)
    (hworker : controlOnly request = false) (hhello : isHello request = false)
    (entropy : Entropy) (he : e = .handle client request entropy) :
    Atomic e m (handleWorker client peer pid request entropy) := by
  obtain ⟨p, ho, rfl⟩ := h.owns hclient
  refine wp_read (wp_lookup fun q hq => wp_check fun _ => ?_)
  rw [ho.process] at hq
  cases hq
  refine (wp_ite _ _ _).mpr ⟨fun _ => .refl e m, fun hidentity => wp_check fun haborted =>
    wp_check fun hadmitted => ?_⟩
  refine handleOwner_atomic h hcollected ho haborted request ?_ hworker hidentity hhello entropy he
  by_cases hpending : p.state.isPending = true
  · exact .inr (by simpa [hpending] using hadmitted)
  · exact .inl (active_of haborted hpending)

theorem handleRetired_atomic (h : Coherent m) (pid id : Nat) (request : Request)
    (entropy : Entropy) (he : e = .handle client request entropy) :
    Atomic e m (handleRetired client pid id request) := by
  cases request
  case commitExec j => exact wp_check fun _ => commitExec_atomic h j entropy he
  case abortExec j => exact wp_check fun _ => abortExec_atomic j
  all_goals exact wp_reject _ _

variable (client) in
theorem handle_atomic (h : Coherent m) (hcollected : m.collected) (request : Request)
    (entropy : Entropy) (he : e = .handle client request entropy) :
    Atomic e m (handle client request entropy) := by
  refine wp_read (wp_lookup fun c hclient => wp_check fun hhelper => wp_check fun hhello =>
    wp_check fun _ => ?_)
  refine (wp_ite _ _ _).mpr
    ⟨fun hcontrol => handleControl_atomic hclient hcontrol request entropy he,
      fun hcontrol => wp_check fun hworker => ?_⟩
  have hhello' : isHello request = false := by simpa using hhello
  have hworker' : controlOnly request = false := by simpa using hworker
  obtain ⟨peer, kind⟩ := c
  cases kind with
  | worker pid =>
    exact handleWorker_atomic h hcollected hclient request hworker' hhello' entropy he
  | execCandidate pid id => exact handleExecCandidate_atomic hclient request
  | retired pid id => exact handleRetired_atomic h pid id request entropy he
  | controller | launcher => exact absurd rfl hcontrol
  | helper => exact absurd rfl hhelper

variable (client) in
theorem handle_abortFork_collected (id : Nat) (entropy : Entropy) :
    wp (handle client (.abortFork id) entropy) (fun _ m' => m'.collected) (Rejected m) m := by
  refine wp_read (wp_lookup fun c hclient => wp_check fun hhelper => wp_check fun _ =>
    wp_check fun _ => ?_)
  refine (wp_ite _ _ _).mpr ⟨fun _ => wp_reject _ _, fun hcontrol => wp_check fun _ => ?_⟩
  obtain ⟨peer, kind⟩ := c
  cases kind with
  | worker pid =>
    refine wp_read (wp_lookup fun q _ => wp_check fun _ => ?_)
    refine (wp_ite _ _ _).mpr ⟨nofun, fun _ => wp_check fun _ => wp_check fun _ => ?_⟩
    refine wp_read (wp_ownedTransaction fun t _ _ => wp_check fun _ => ?_)
    exact collected_collectObjects (m.abortTransaction id)
  | execCandidate pid j =>
    exact wp_read (wp_lookup fun t _ => wp_check fun _ => wp_check fun _ =>
      wp_lookup fun p _ => wp_reject _ _)
  | retired pid j => exact wp_reject _ _
  | controller | launcher => exact absurd rfl hcontrol
  | helper => exact absurd rfl hhelper

variable (client) in
theorem acknowledge_atomic (h : Coherent m) (id : Nat) :
    Atomic (.acknowledge client id) m (acknowledge client id) := by
  refine wp_read (wp_lookup fun c hclient => ?_)
  obtain ⟨peer, kind⟩ := c
  cases kind with
  | worker pid =>
    obtain ⟨p, ho, rfl⟩ := h.owns hclient
    refine wp_lookup fun q _ => ?_
    split
    · next t ht =>
      exact wp_check fun hparent => wp_check fun hterminal => wp_unwrap ho.process
        (Effect.of_change (.forgetFork rfl ho ht (not_not.mp hparent) (by simpa using hterminal)))
    split
    · next t ht =>
      exact wp_check fun howned => wp_check fun haborted => wp_unwrap ho.process
        (Effect.of_change (.forgetExec rfl ho ht (not_not.mp (not_or.mp howned).1)
          (not_not.mp haborted)))
    · exact .refl _ m
  | _ => exact wp_reject _ _

/-! ## Connecting -/

/-- What `connect` has checked about the identity before it looks at the role. -/
theorem unknown_of_not_knownWorker (h : (anyValue m.processes (fun p => p.peer == peer)
      || anyValue m.clients (fun c => c.peer == peer && !c.kind.isControl)
      || decide (peer ∈ m.retiredPeers)) = false) : m.Unknown peer := by
  simp only [Bool.or_eq_false_iff, anyValue_eq_false, beq_eq_false_iff_ne, ne_eq,
    Bool.and_eq_false_iff, Bool.not_eq_false', decide_eq_false_iff_not] at h
  obtain ⟨⟨hprocess, hclient⟩, hretired⟩ := h
  refine ⟨fun pid hpid => ?_, fun i c hc hpeer => ?_, hretired⟩
  · obtain ⟨p, hp, hpeer⟩ := column_eq_some.mp hpid
    exact hprocess pid p hp hpeer
  · exact (hclient i c hc).resolve_left fun hne => hne hpeer

/-- Who a new connection is, before it is entered in the table. -/
abbrev Joins {α : Type} (e : Event) (m : StateManager) (peer : PeerIdentity)
    (kind : α → ClientKind) (call : Rpc α) : Prop :=
  wp call (fun a m₁ => Change e m (m₁.addClient peer (kind a))) (Rejected m) m

variable {peer : PeerIdentity}

theorem adoptExec_joins (h : Coherent m) {t : ExecTransaction} (hunknown : m.Unknown peer)
    (hfresh : m.NoClient peer) (hroom : m.clients.size < m.limits.maxClients)
    (ht : m.execTransactions[id]? = some t) (htarget : t.target = peer) :
    Joins e m peer (fun identity => .execCandidate identity.pid id)
      (adoptExec id m.nextClient) := by
  refine wp_read (wp_unwrap ht (wp_check fun haborted => wp_check fun hprepared =>
    wp_lookup fun p hp => wp_write ?_))
  have hpid : p.identity.pid = t.process := (h.numbering.process _ p hp).2.2
  change Change e m ((m.attachExec id m.nextClient).addClient peer
    (.execCandidate p.identity.pid id))
  rw [hpid]
  exact .connectExec hunknown hfresh hroom ht htarget (not_not.mp hprepared)

theorem adopt_joins (h : Coherent m) (token : String) (hunknown : m.Unknown peer)
    (htarget : m.NoTarget peer) (hfresh : m.NoClient peer)
    (hroom : m.clients.size < m.limits.maxClients) :
    Joins e m peer (fun identity => .worker identity.pid) (adopt token peer) := by
  refine wp_check fun _ => wp_read (wp_lookup fun found hfound => ?_)
  obtain ⟨id, t⟩ := found
  obtain ⟨ht, -⟩ := findEntry_some hfound
  refine wp_check fun _ => wp_check fun hprepared => ?_
  have hstate := not_not.mp hprepared
  have hphase := h.phases.phase ht
  simp only [Transaction.Phase, hstate] at hphase
  obtain ⟨snapshot, hsnapshot⟩ := Option.ne_none_iff_exists'.mp hphase.1
  exact wp_unwrap hsnapshot (wp_write
    (.connectFork hunknown htarget hfresh hroom ht hstate hsnapshot))

theorem spawnRoot_joins (hunknown : m.Unknown peer) (htarget : m.NoTarget peer)
    (hfresh : m.NoClient peer) (hroom : m.clients.size < m.limits.maxClients) :
    Joins e m peer (fun identity => .worker identity.pid) (spawnRoot peer) :=
  wp_read (wp_check fun _ => wp_checkProcessCapacity fun hprocesses =>
    wp_allocateIdentity fun hpids =>
      .connectRoot hunknown htarget hfresh hroom hprocesses hpids)

theorem connectRole_joins (h : Coherent m) (hello : Hello) {reservedExec : Option Nat}
    {knownWorker : Bool} (hunknown : knownWorker = false → m.Unknown peer)
    (hnone : reservedExec = none → m.NoTarget peer) (hsome : ∀ id : Nat, reservedExec = some id →
      ∃ t : ExecTransaction, m.execTransactions[id]? = some t ∧ t.target = peer)
    (hroom : m.clients.size < m.limits.maxClients) :
    Joins e m peer Prod.snd (connectRole hello peer reservedExec knownWorker) := by
  refine wp_read ?_
  have hfresh : anyValue m.clients (fun c => c.peer == peer) = false → m.NoClient peer := by
    intro hused i c hc
    simpa using anyValue_eq_false.mp hused i c hc
  cases hrole : hello.role
  case helper =>
    refine wp_check fun hused => ?_
    simp only [not_or, Bool.not_eq_true, Option.isSome_eq_false_iff, Option.isNone_iff_eq_none]
      at hused
    obtain ⟨-, hknown, hreserved, hclient⟩ := hused
    exact .connectControl (.inl rfl) (hunknown hknown) (hnone hreserved)
      (fun _ => hfresh hclient) hroom
  case controller =>
    refine wp_check fun hused => ?_
    simp only [not_or, Bool.not_eq_true, Option.isSome_eq_false_iff, Option.isNone_iff_eq_none]
      at hused
    obtain ⟨-, hknown, hreserved⟩ := hused
    exact .connectControl (.inr rfl) (hunknown hknown) (hnone hreserved) nofun hroom
  case launcher =>
    refine wp_check fun hused => ?_
    simp only [not_or, Bool.not_eq_true, Option.isSome_eq_false_iff, Option.isNone_iff_eq_none]
      at hused
    obtain ⟨-, hknown, hreserved⟩ := hused
    exact .connectControl (.inr rfl) (hunknown hknown) (hnone hreserved) nofun hroom
  case worker =>
    refine wp_check fun hknown => wp_check fun hclient => ?_
    have hunknown' := hunknown (by simpa using hknown)
    have hfresh' := hfresh (Bool.eq_false_iff.mpr hclient)
    cases hreserved : reservedExec with
    | some id =>
      obtain ⟨t, ht, htarget⟩ := hsome id hreserved
      refine wp_check fun _ => ?_
      rw [wp_bind]
      exact wp_mono (adoptExec_joins h hunknown' hfresh' hroom ht htarget)
        (fun _ _ hjoin => hjoin) fun _ _ hf => hf
    | none =>
      have htarget := hnone hreserved
      cases hello.adoptionTicket with
      | some token =>
        rw [wp_bind]
        exact wp_mono (adopt_joins h token hunknown' htarget hfresh' hroom)
          (fun _ _ hjoin => hjoin) fun _ _ hf => hf
      | none =>
        rw [wp_bind]
        exact wp_mono (spawnRoot_joins hunknown' htarget hfresh' hroom)
          (fun _ _ hjoin => hjoin) fun _ _ hf => hf

theorem connect_atomic (h : Coherent m) (hello : Hello) (peer : PeerIdentity) :
    Atomic e m (connect hello peer) := by
  refine wp_check fun _ => wp_read (wp_check fun _ => wp_check fun _ => wp_check fun _ =>
    wp_check fun hroom => ?_)
  rw [wp_bind]
  refine wp_mono (connectRole_joins (e := e) h hello unknown_of_not_knownWorker
    (fun hnone id t ht => ?_) (fun id hsome => ?_) (Nat.lt_of_not_le (not_or.mp hroom).1))
    (fun found m₁ hjoin => .of_change hjoin) fun _ _ hf => hf
  · simpa using findEntry_none.mp (Option.map_eq_none_iff.mp hnone) id t ht
  · obtain ⟨⟨j, t⟩, hfound, rfl⟩ := Option.map_eq_some_iff.mp hsome
    obtain ⟨ht, htarget⟩ := findEntry_some hfound
    exact ⟨t, ht, by simpa using htarget⟩

end Kinakaze.Manager
