import Kinakaze.Manager.Numbering

/-!
# Phases of a fork

A fork transaction and the process it creates go through their states together:
while the transaction is prepared its child is only a number, an adopted or
ready transaction has a pending child, and a finished one has a child that is
active, aborted, or gone.  Only a prepared transaction owns a snapshot.
-/

namespace Kinakaze.Manager

open Kinakaze.Library Kinakaze.Protocol

/-- What the state of a fork transaction says about its child and its snapshot. -/
def Transaction.Phase (child : Option ProcessState) (id : Nat) (t : Transaction) : Prop :=
  match t.state with
  | .prepared => t.snapshot ≠ none ∧ child = none
  | .adopted | .ready => t.snapshot = none ∧ child = some (.pending id)
  | .committed => t.snapshot = none ∧ (child = none ∨ child = some .active)
  | .aborted => t.snapshot = none ∧ (child = none ∨ child = some .aborted)

/-- Fork transactions and the processes they create are in step. -/
structure Phases (transactions : Table Transaction) (stateOf : Nat → Option ProcessState) :
    Prop where
  parentActive : ∀ {id : Nat} {t : Transaction}, transactions[id]? = some t →
    stateOf t.parent = some .active
  childDistinct : ∀ {id jd : Nat} {t u : Transaction}, transactions[id]? = some t →
    transactions[jd]? = some u → t.ticket.child.pid = u.ticket.child.pid → id = jd
  phase : ∀ {id : Nat} {t : Transaction}, transactions[id]? = some t →
    t.Phase (stateOf t.ticket.child.pid) id
  pendingFork : ∀ {pid id : Nat}, stateOf pid = some (.pending id) →
    ∃ t : Transaction, transactions[id]? = some t ∧ t.ticket.child.pid = pid

/-! ## Effects on transactions and states -/

section Components

variable {transactions transactions' : Table Transaction}
  {stateOf stateOf' : Nat → Option ProcessState}

theorem Phases.addRoot (h : Phases transactions stateOf) {pid : Nat} (hpid : stateOf pid = none)
    (hchild : ∀ (i : Nat) (u : Transaction), transactions[i]? = some u → u.ticket.child.pid ≠ pid)
    (hstate : ∀ q : Nat, stateOf' q = if pid = q then some .active else stateOf q) :
    Phases transactions stateOf' := by
  exact { h with
    parentActive := by grind [@h.parentActive]
    phase := by grind [@h.phase]
    pendingFork := by grind [@h.pendingFork] }

variable {id : Nat} {t : Transaction}

section

variable (h : Phases transactions stateOf)
include h

theorem Phases.reserve (hprepared : t.state = .prepared)
    (hsnapshot : t.snapshot ≠ none) (hparent : stateOf t.parent = some .active)
    (hpid : stateOf t.ticket.child.pid = none)
    (hchild : ∀ (i : Nat) (u : Transaction), transactions[i]? = some u →
      u.ticket.child.pid ≠ t.ticket.child.pid) (hid : transactions[id]? = none)
    (htransactions : ∀ j : Nat, transactions'[j]? = if id = j then some t else transactions[j]?) :
    Phases transactions' stateOf := by
  exact { h with
    parentActive := by grind [@h.parentActive]
    childDistinct := by grind [@h.childDistinct]
    phase := by grind [@h.phase, Transaction.Phase]
    pendingFork := by grind [@h.pendingFork] }

section

variable (ht : transactions[id]? = some t)
include ht

theorem Phases.attach (hprepared : t.state = .prepared)
    (htransactions : ∀ j : Nat, transactions'[j]? =
      if id = j then some { t with snapshot := none, state := .adopted } else transactions[j]?)
    (hstate : ∀ q : Nat, stateOf' q =
      if t.ticket.child.pid = q then some (.pending id) else stateOf q) :
    Phases transactions' stateOf' := by
  have hphase := @h.phase
  have hdistinct := @h.childDistinct
  exact { h with
    parentActive := by grind [@h.parentActive, Transaction.Phase]
    childDistinct := by grind
    phase := by grind [Transaction.Phase]
    pendingFork := by grind [@h.pendingFork, Transaction.Phase] }

theorem Phases.setReady (hpending : stateOf t.ticket.child.pid = some (.pending id))
    (htransactions : ∀ j : Nat, transactions'[j]? =
      if id = j then some { t with state := .ready } else transactions[j]?) :
    Phases transactions' stateOf := by
  have hphase := @h.phase
  exact { h with
    parentActive := by grind [@h.parentActive]
    childDistinct := by grind [@h.childDistinct]
    phase := by grind [Transaction.Phase]
    pendingFork := by grind [@h.pendingFork] }

theorem Phases.commit (hready : t.state = .ready) (htransactions : ∀ j : Nat, transactions'[j]? =
      if id = j then some { t with state := .committed } else transactions[j]?)
    (hstate : ∀ q : Nat, stateOf' q = if t.ticket.child.pid = q then some .active else stateOf q) :
    Phases transactions' stateOf' := by
  have hphase := @h.phase
  have hdistinct := @h.childDistinct
  exact { h with
    parentActive := by grind [@h.parentActive]
    childDistinct := by grind
    phase := by grind [Transaction.Phase]
    pendingFork := by grind [@h.pendingFork, Transaction.Phase] }

theorem Phases.abort (hpending : t.state.terminal = false)
    (htransactions : ∀ j : Nat, transactions'[j]? =
      if id = j then some { t with state := .aborted, snapshot := none } else transactions[j]?)
    (hstate : ∀ q : Nat, stateOf' q =
      if t.ticket.child.pid = q then (stateOf q).map fun _ => .aborted else stateOf q) :
    Phases transactions' stateOf' := by
  have hphase := @h.phase
  have hdistinct := @h.childDistinct
  exact { h with
    parentActive := by grind [@h.parentActive, Transaction.Phase]
    childDistinct := by grind
    phase := by grind [Transaction.Phase]
    pendingFork := by grind [@h.pendingFork, Transaction.Phase] }

end

theorem Phases.forget
    (hkept : ∀ (j : Nat) (u : Transaction), transactions'[j]? = some u → transactions[j]? = some u)
    (hforgot : ∀ (j : Nat) (u : Transaction), transactions[j]? = some u →
      u.state.terminal = false → transactions'[j]? = some u) : Phases transactions' stateOf := by
  have hphase := @h.phase
  exact { h with
    parentActive := by grind [@h.parentActive]
    childDistinct := by grind [@h.childDistinct]
    phase := by grind 
    pendingFork := by grind [@h.pendingFork, Transaction.Phase] }

/-- A process without unfinished forks ends, and the transactions it is the
parent of with it. -/
theorem Phases.endProcess {pid : Nat}
    (hforks : ∀ (j : Nat) (u : Transaction), transactions[j]? = some u →
      u.state.terminal = false → u.parent ≠ pid ∧ u.ticket.child.pid ≠ pid)
    (hkept : ∀ (j : Nat) (u : Transaction), transactions'[j]? = some u →
      u.parent ≠ pid ∧ ∃ t : Transaction, transactions[j]? = some t ∧ u.parent = t.parent ∧
        u.ticket.child.pid = t.ticket.child.pid ∧ u.state = t.state ∧ u.snapshot = t.snapshot)
    (hforgot : ∀ (j : Nat) (t : Transaction), transactions[j]? = some t → t.parent ≠ pid →
      ∃ u : Transaction, transactions'[j]? = some u ∧ u.ticket.child.pid = t.ticket.child.pid)
    (hstate : ∀ q : Nat, stateOf' q = if pid = q then none else stateOf q) :
    Phases transactions' stateOf' := by
  have hphase := @h.phase
  exact { h with
    parentActive := by grind [@h.parentActive]
    childDistinct := by grind [@h.childDistinct]
    phase := by grind [Transaction.Phase]
    pendingFork := by grind [@h.pendingFork, Transaction.Phase] }

end

end Components

/-! ## Effects of a call -/

/-- The invariant of the fork transactions. -/
abbrev StateManager.phases (m : StateManager) : Prop := Phases m.transactions m.stateOf

theorem Phases.initial {m : StateManager} (h : Initial m) : m.phases := by
  cases h <;> constructor <;> intros <;>
    simp_all [StateManager.stateOf, column, StateManager.withLimits,
      StateManager.forProcessTree, StateManager.new]

variable {m m' : StateManager} {e : Event}

theorem Numbering.child_fresh (h : Numbering m) {id : Nat} {t : Transaction}
    (ht : m.transactions[id]? = some t) : t.ticket.child.pid ≠ m.nextPid :=
  Nat.ne_of_lt (h.fork id t ht).2.2.2

theorem Phases.change (h : m.phases) (hn : Numbering m) (hchange : Change e m m') : m'.phases := by
  cases hchange with
  | shutdown | connectControl | connectExec | setValue | collect | execReady | commitExec
  | dropClient | noteExit | forgetRetired => exact h
  | connectRoot =>
    exact h.addRoot (column_eq_none.mpr hn.process_fresh) (fun _ _ => hn.child_fresh)
      (column_insert _ _ _ · _)
  | connectFork hunknown htarget hfresh hroom ht hprepared hsnapshot =>
    exact h.attach ht hprepared (get_modify_of _ ht) (column_insert _ _ _ · _)
  | park => rw [StateManager.phases, stateOf_setPrewarm]; exact h
  | bindLaunch => rw [StateManager.phases, stateOf_bindLaunch]; exact h
  | addModule => rw [StateManager.phases, stateOf_addModule]; exact h
  | addState => rw [StateManager.phases, stateOf_addState]; exact h
  | reserveFork howner hactive hkey hparent hkeys hroom hprocesses hpids hcopied hobjects =>
    rw [StateManager.phases, stateOf_reserveFork]
    refine h.reserve rfl (Option.some_ne_none _) ?_ (column_eq_none.mpr hn.process_fresh)
      (fun _ _ => hn.child_fresh) hn.fork_fresh (get_insert _ _ · _)
    rw [StateManager.stateOf, column_of_get _ howner.process, hactive]
  | @forkReady _ client pid id p howner hpending =>
    have hstate : m.stateOf pid = some (.pending id) := by
      rw [StateManager.stateOf, column_of_get _ howner.process, hpending]
    obtain ⟨t, ht, rfl⟩ := h.pendingFork hstate
    exact h.setReady ht hstate (get_modify_of _ ht)
  | @commitFork _ client pid id p t howner ht hparent hready =>
    refine h.commit ht hready (get_modify_of _ ht) fun q => ?_
    rw [stateOf_activateChild]
    have hphase := h.phase ht
    simp only [Transaction.Phase, hready] at hphase
    split
    · next hq => rw [← hq, hphase.2]; rfl
    · rfl
  | abortFork hevent ht hpending =>
    refine h.abort ht hpending ?_ (stateOf_abortTransaction m ht hpending)
    rw [abortTransaction_of_pending ht hpending]
    exact get_modify_of _ ht
  | addExec => rw [StateManager.phases, stateOf_addExec]; exact h
  | abortExec ht hpending => rw [abortExecTransaction_of_pending ht hpending]; exact h
  | forgetFork hevent howner ht hparent hterminal =>
    rw [StateManager.phases, stateOf_forgetTransaction]
    refine h.forget (fun j u hu => ?_) fun j u hu hpending => ?_
    · rw [StateManager.forgetTransaction, get_erase] at hu
      split at hu
      · cases hu
      · exact hu
    · rw [StateManager.forgetTransaction, get_erase, if_neg]
      · exact hu
      · rintro rfl
        rw [Option.some.inj (ht.symm.trans hu), hpending] at hterminal
        cases hterminal
  | forgetExec => rw [StateManager.phases, stateOf_forgetExec]; exact h
  | release => rw [StateManager.phases, stateOf_releaseReservations]; exact h
  | promote =>
    rw [StateManager.phases, stateOf_promote]
    refine h.forget (fun j u hu => (get_filter_eq_some.mp hu).1) fun j u hu hpending => ?_
    exact get_filter_eq_some.mpr ⟨hu, by simp [hpending]⟩
  | endProcess hevent hp hfresh hforks hexecs hrecorded =>
    refine h.endProcess hforks (fun j u hu => ?_) (fun j t ht hparent => ?_)
      (stateOf_endProcess _ _ · _ _)
    · obtain ⟨t, ht, hparent, rfl⟩ := (transactions_endProcess m).mp hu
      exact ⟨hparent, t, ht, rfl, pid_reparent _ _, rfl, rfl⟩
    · exact ⟨_, (transactions_endProcess m).mpr ⟨t, ht, hparent, rfl⟩, pid_reparent _ _⟩

/-! ## Execs -/

/-- The process of an exec transaction is past its fork. -/
def StateManager.execsActive (m : StateManager) : Prop :=
  ForAll m.execTransactions fun _ t => m.stateOf t.process = some .active

theorem execsActive_initial {m : StateManager} (h : Initial m) : m.execsActive := by
  cases h <;> exact ForAll.empty

theorem Phases.child_not_active {transactions : Table Transaction}
    {stateOf : Nat → Option ProcessState} (h : Phases transactions stateOf) {id : Nat}
    {t : Transaction} (ht : transactions[id]? = some t) (hpending : t.state.terminal = false) :
    stateOf t.ticket.child.pid ≠ some .active := by
  have hphase := h.phase ht
  grind [Transaction.Phase]

theorem execsActive_change (h : m.execsActive) (hp : m.phases) (hchange : Change e m m') :
    m'.execsActive := by
  unfold StateManager.execsActive at h ⊢
  cases hchange with
  | shutdown | connectControl | setValue | forkReady | collect | dropClient | forgetRetired =>
    exact h
  | connectRoot =>
    refine h.mono fun id t ht => ?_
    refine (column_insert _ _ _ _ _).trans ?_
    split
    · rfl
    · exact ht
  | connectFork hunknown htarget hfresh hroom ht hprepared hsnapshot =>
    refine h.mono fun id u hu => ?_
    refine (column_insert _ _ _ _ _).trans ?_
    rw [if_neg]
    · exact hu
    · intro heq
      exact hp.child_not_active ht (by rw [hprepared]; rfl) (heq ▸ hu)
  | connectExec | execReady | commitExec | noteExit => exact h.modify fun _ _ ht => ht
  | park => rw [stateOf_setPrewarm]; exact h
  | bindLaunch => rw [stateOf_bindLaunch]; exact h
  | addModule => rw [stateOf_addModule]; exact h
  | addState => rw [stateOf_addState]; exact h
  | reserveFork => rw [stateOf_reserveFork]; exact h
  | commitFork =>
    refine h.mono fun id t ht => ?_
    rw [stateOf_activateChild, ht]
    split <;> rfl
  | @abortFork id t hevent ht hpending =>
    have hexecs : (m.abortTransaction id).execTransactions = m.execTransactions := by
      rw [abortTransaction_of_pending ht hpending]
    rw [hexecs]
    refine h.mono fun j u hu => ?_
    rw [stateOf_abortTransaction m ht hpending, if_neg]
    · exact hu
    · intro heq
      exact hp.child_not_active ht hpending (heq ▸ hu)
  | addExec howner hactive =>
    rw [stateOf_addExec]
    refine ForAll.insert h ?_
    rw [StateManager.stateOf, column_of_get _ howner.process, hactive]
  | abortExec ht hpending =>
    rw [abortExecTransaction_of_pending ht hpending]
    exact h.modify fun _ _ ht => ht
  | forgetFork => rw [stateOf_forgetTransaction]; exact h
  | forgetExec => rw [stateOf_forgetExec]; exact h.erase _
  | release => rw [stateOf_releaseReservations]; exact h
  | promote => rw [stateOf_promote]; exact h.filter _
  | endProcess hevent hp' hfresh hforks hexecs hrecorded =>
    intro j u hu
    obtain ⟨hu, hprocess⟩ := get_filter_eq_some.mp hu
    rw [stateOf_endProcess, if_neg]
    · exact h j u hu
    · exact fun heq => by simp [heq] at hprocess

end Kinakaze.Manager
