import Kinakaze.Manager.Phases

/-!
# Objects and who refers to them

A state lives in an object, and an object is reached from a process or from the
snapshot of a fork reservation.  Only shared states are reached from more than
one place; a copied or reset state belongs to its holder alone, which is what
isolates a child from its parent.
-/

namespace Kinakaze.Manager

open Kinakaze.Library Kinakaze.Protocol

/-- What can refer to an object: a process, or a reservation for one. -/
inductive Holder
  | process (pid : Nat)
  | reservation (transaction : Nat)
  deriving DecidableEq

variable {pid id : Nat}

theorem Holder.process_ne : Holder.process pid ≠ .reservation id :=
  nofun

theorem Holder.reservation_ne : Holder.reservation id ≠ .process pid :=
  nofun

/-- The state table of a fork transaction's snapshot. -/
def Transaction.reserved (t : Transaction) : Option StateTable :=
  t.snapshot.map Snapshot.states

/-- The state table of a holder. -/
def StateManager.statesOf (m : StateManager) : Holder → Option StateTable
  | .process pid => column m.processes (fun p => p.snapshot.states) pid
  | .reservation id => m.transactions[id]?.bind Transaction.reserved

/-- References are defined, and only shared objects have more than one. -/
structure References (statesOf : Holder → Option StateTable) (objects : Table Object) :
    Prop where
  defined : ∀ {x : Holder} {s : StateTable} {key : StateKey} {id : Nat},
    statesOf x = some s → s[key]? = some id → ∃ o : Object, objects[id]? = some o
  exclusive : ∀ {x y : Holder} {s s' : StateTable} {key key' : StateKey} {id : Nat}
    {o : Object}, statesOf x = some s → statesOf y = some s' → s[key]? = some id →
    s'[key']? = some id → objects[id]? = some o → o.fork ≠ .share → x = y ∧ key = key'

/-- Every object is referred to. -/
def Collected (statesOf : Holder → Option StateTable) (objects : Table Object) : Prop :=
  ForAll objects fun id _ => ∃ (x : Holder) (s : StateTable) (key : StateKey),
    statesOf x = some s ∧ s[key]? = some id

section Components

variable {statesOf statesOf' : Holder → Option StateTable} {objects objects' : Table Object}

variable (h : References statesOf objects)
include h

theorem References.mono
    (hle : ∀ (x : Holder) (s : StateTable), statesOf' x = some s → statesOf x = some s) :
    References statesOf' objects where
  defined hx hkey := h.defined (hle _ _ hx) hkey
  exclusive hx hy hkey hkey' ho hshare :=
    h.exclusive (hle _ _ hx) (hle _ _ hy) hkey hkey' ho hshare

variable {x y : Holder}

theorem References.move (hmove : ∀ z : Holder, statesOf' z =
      if z = y then statesOf x else if z = x then none else statesOf z) :
    References statesOf' objects where
  defined := by grind [@h.defined]
  exclusive := by
    have hexclusive := @h.exclusive
    grind

theorem References.newHolder
    (hnew : ∀ z : Holder, statesOf' z = if z = x then some ∅ else statesOf z) :
    References statesOf' objects where
  defined := by
    have hdefined := @h.defined
    grind
  exclusive := by
    have hexclusive := @h.exclusive
    grind

variable {s s' : StateTable}

theorem References.insertObject (x : Holder) (key : StateKey) {o : Object}
    (hid : objects[id]? = none) (hx : statesOf x = some s)
    (hstates : ∀ z : Holder, statesOf' z = if z = x then some (s.insert key id) else statesOf z)
    (hobjects : ∀ j : Nat, objects'[j]? = if id = j then some o else objects[j]?) :
    References statesOf' objects' where
  defined := by
    have hdefined := @h.defined
    have hget : ∀ k : StateKey, (s.insert key id)[k]? = if key = k then some id else s[k]? :=
      fun k => get_insert _ _ _ _
    grind
  exclusive := by
    have hdefined := @h.defined
    have hexclusive := @h.exclusive
    have hget : ∀ k : StateKey, (s.insert key id)[k]? = if key = k then some id else s[k]? :=
      fun k => get_insert _ _ _ _
    grind

theorem References.setValue {value : Nat} {o : Object} (ho : objects[id]? = some o)
    (hobjects : ∀ j : Nat, objects'[j]? =
      if id = j then some { o with value := value } else objects[j]?) :
    References statesOf objects' where
  defined := by grind [@h.defined]
  exclusive := by
    have hexclusive := @h.exclusive
    grind

omit h

theorem Copied.entry {next next' : Nat} (h : Copied objects next s objects' next' s')
    (hbelow : ForAll objects fun id _ => id < next) {key : StateKey} (hkey : s'[key]? = some id) :
    (id < next ∧ s[key]? = some id ∧ ∃ o : Object, objects[id]? = some o ∧ o.fork = .share) ∨
      (next ≤ id ∧ ∃ (id₀ : Nat) (o o' : Object), s[key]? = some id₀ ∧
        objects[id₀]? = some o ∧ o.forked = some o' ∧ objects'[id]? = some o') := by
  obtain ⟨id₀, o, hkey₀, ho, hshared⟩ := h.defined hkey
  cases hforked : o.forked with
  | none =>
    have hshare : o.fork = .share := by
      unfold Object.forked at hforked
      split at hforked <;> simp_all
    have hid := hshared hshare
    subst hid
    exact .inl ⟨hbelow _ _ ho, hkey₀, o, ho, hshare⟩
  | some o' =>
    obtain ⟨id', hnext, hkey', ho'⟩ := h.forked hkey₀ ho hforked
    rw [hkey] at hkey'
    cases hkey'
    exact .inr ⟨hnext, id₀, o, o', hkey₀, ho, hforked, ho'⟩

theorem References.copy (h : References statesOf objects) {next next' : Nat}
    (hbelow : ForAll objects fun id _ => id < next)
    (hx : statesOf x = some s) (hcopied : Copied objects next s objects' next' s')
    (hstates : ∀ z : Holder, statesOf' z = if z = y then some s' else statesOf z)
    (hy : statesOf y = none) : References statesOf' objects' := by
  -- Everything an old holder refers to was there before the copy.
  have hold : ∀ {z : Holder} {t : StateTable} {key : StateKey} {id : Nat},
      statesOf z = some t → t[key]? = some id → id < next ∧ objects'[id]? = objects[id]? := by
    intro z t key id hz hkey
    obtain ⟨o, ho⟩ := h.defined hz hkey
    exact ⟨hbelow id o ho, hcopied.old (hbelow id o ho)⟩
  refine ⟨?_, ?_⟩
  · intro z t key id hz hkey
    rw [hstates] at hz
    split at hz
    · cases hz
      rcases hcopied.entry hbelow hkey with ⟨hlt, -, o, ho, -⟩ | ⟨-, -, -, o', -, -, -, ho'⟩
      · exact ⟨o, (hcopied.old hlt).trans ho⟩
      · exact ⟨o', ho'⟩
    · rw [(hold hz hkey).2]
      exact h.defined hz hkey
  · -- A new object has one key in the copied table; an old one there is shared.
    have hnew : ∀ {key : StateKey} {id : Nat} {o : Object}, s'[key]? = some id →
        objects'[id]? = some o → o.fork ≠ .share → next ≤ id := by
      intro key id o hkey ho hshare
      rcases hcopied.entry hbelow hkey with ⟨hlt, -, o₀, ho₀, hshare₀⟩ | ⟨hle, -⟩
      · rw [hcopied.old hlt, ho₀] at ho
        cases ho
        exact absurd hshare₀ hshare
      · exact hle
    intro z w t t' key key' id o hz hw hkey hkey' ho hshare
    rw [hstates] at hz hw
    split at hz <;> split at hw
    · next hzy hwy =>
      cases hz
      cases hw
      exact ⟨hzy.trans hwy.symm, hcopied.distinct hkey hkey' (hnew hkey ho hshare)⟩
    · cases hz
      exact absurd (hold hw hkey').1 (Nat.not_lt.mpr (hnew hkey ho hshare))
    · cases hw
      exact absurd (hold hz hkey).1 (Nat.not_lt.mpr (hnew hkey' ho hshare))
    · rw [(hold hz hkey).2] at ho
      exact h.exclusive hz hw hkey hkey' ho hshare

end Components

/-! ## Holders across effects -/

/-- The state table of each process. -/
def StateManager.tableOf (m : StateManager) : Nat → Option StateTable :=
  column m.processes fun p => p.snapshot.states

/-- The state table of each fork reservation. -/
def StateManager.reservedTable (m : StateManager) (id : Nat) : Option StateTable :=
  m.transactions[id]?.bind Transaction.reserved

variable {m m' : StateManager} {e : Event}

theorem statesOf_congr (hprocesses : m'.tableOf = m.tableOf)
    (htransactions : m'.reservedTable = m.reservedTable) : m'.statesOf = m.statesOf := by
  funext x
  cases x with
  | process pid => exact congrFun hprocesses pid
  | reservation id => exact congrFun htransactions id

theorem tableOf_modify (pid : Nat) {f : Process → Process}
    (hf : ∀ p : Process, (f p).snapshot.states = p.snapshot.states) :
    column (m.processes.modify pid f) (fun p => p.snapshot.states) = m.tableOf :=
  column_modify_eq _ _ hf

variable {f : Transaction → Transaction}

theorem reservedTable_modify (id : Nat) (hf : ∀ t : Transaction, (f t).snapshot = t.snapshot)
    (j : Nat) : (m.transactions.modify id f)[j]?.bind Transaction.reserved = m.reservedTable j := by
  rw [get_modify]
  split
  · unfold StateManager.reservedTable
    cases m.transactions[j]? with
    | none => rfl
    | some t => exact congrArg (Option.map Snapshot.states) (hf t)
  · rfl

theorem reservedTable_clear (id : Nat) (hf : ∀ t : Transaction, (f t).snapshot = none) (j : Nat) :
    (m.transactions.modify id f)[j]?.bind Transaction.reserved =
      if id = j then none else m.reservedTable j := by
  rw [get_modify]
  split
  · cases m.transactions[j]? with
    | none => rfl
    | some t => exact congrArg (Option.map Snapshot.states) (hf t)
  · rfl

theorem statesOf_releaseReservations (client : ClientId) :
    (m.releaseReservations client).statesOf = m.statesOf :=
  statesOf_congr (column_map_eq _ (by intro _ _; split <;> rfl)) rfl

variable {t : Transaction}

theorem statesOf_abortTransaction (ht : m.transactions[id]? = some t)
    (hpending : t.state.terminal = false) (x : Holder) :
    (m.abortTransaction id).statesOf x = if x = .reservation id then none else m.statesOf x := by
  rw [abortTransaction_of_pending ht hpending]
  cases x with
  | process pid =>
    rw [if_neg nofun]
    exact congrFun (tableOf_modify _ (by intro _; rfl)) pid
  | reservation j =>
    refine (reservedTable_clear id (by intro _; rfl) j).trans ?_
    simp only [Holder.reservation.injEq, eq_comm (a := j)]
    rfl

theorem statesOf_attachFork {snapshot : Snapshot} (ht : m.transactions[id]? = some t)
    (hsnapshot : t.snapshot = some snapshot) (child : ProcessIdentity) (peer : PeerIdentity)
    (x : Holder) :
    (m.attachFork id child peer snapshot).statesOf x =
      if x = .process child.pid then m.statesOf (.reservation id)
      else if x = .reservation id then none else m.statesOf x := by
  have hreserved : m.statesOf (.reservation id) = some snapshot.states := by
    rw [StateManager.statesOf, ht, Option.bind_some, Transaction.reserved, hsnapshot]
    rfl
  cases x with
  | process pid =>
    refine (column_insert _ _ _ _ _).trans ?_
    rw [hreserved, if_neg Holder.process_ne]
    simp only [Holder.process.injEq, eq_comm (a := pid)]
    rfl
  | reservation j =>
    rw [if_neg Holder.reservation_ne]
    refine (reservedTable_clear id (by intro _; rfl) j).trans ?_
    simp only [Holder.reservation.injEq, eq_comm (a := j)]
    rfl

/-- Without one of the finished fork transactions, nothing is let go. -/
theorem statesOf_le_of_kept {processes : Table Process} {transactions : Table Transaction}
    (hprocesses : ∀ (pid : Nat) (s : StateTable),
      column processes (fun p => p.snapshot.states) pid = some s → m.tableOf pid = some s)
    (htransactions : ∀ (id : Nat) (u : Transaction), transactions[id]? = some u →
      ∃ t : Transaction, m.transactions[id]? = some t ∧ u.snapshot = t.snapshot)
    (x : Holder) (s : StateTable)
    (hx : { m with processes := processes, transactions := transactions }.statesOf x = some s) :
    m.statesOf x = some s := by
  cases x with
  | process pid => exact hprocesses pid s hx
  | reservation id =>
    obtain ⟨u, hu, hs⟩ := Option.bind_eq_some_iff.mp hx
    obtain ⟨t, ht, hsnapshot⟩ := htransactions id u hu
    rw [StateManager.statesOf, ht, Option.bind_some, Transaction.reserved, ← hsnapshot]
    exact hs

/-! ## Effects of a call -/

/-- References of the manager are defined and exclusive. -/
abbrev StateManager.references (m : StateManager) : Prop := References m.statesOf m.objects

theorem References.initial (h : Initial m) : m.references := by
  have hnone : ∀ x : Holder, m.statesOf x = none := by
    intro x
    cases h <;> cases x <;>
      simp [StateManager.statesOf, column, StateManager.withLimits,
        StateManager.forProcessTree, StateManager.new]
  exact ⟨fun hx => by simp [hnone] at hx, fun hx => by simp [hnone] at hx⟩

theorem References.of_eq (h : m.references) (hstates : m'.statesOf = m.statesOf)
    (hobjects : m'.objects = m.objects) : m'.references := by
  rw [StateManager.references, hstates, hobjects]
  exact h

theorem mem_liveObjects : id ∈ m.liveObjects ↔ ∃ (x : Holder) (s : StateTable) (key : StateKey),
      m.statesOf x = some s ∧ s[key]? = some id := by
  rw [StateManager.liveObjects, List.mem_append, List.mem_flatMap, List.mem_flatMap]
  constructor
  · rintro (⟨p, hp, hid⟩ | ⟨t, ht, hid⟩)
    · obtain ⟨pid, hp⟩ := mem_valuesOf.mp hp
      obtain ⟨key, hkey⟩ := mem_valuesOf.mp hid
      exact ⟨.process pid, _, key, column_of_get _ hp, hkey⟩
    · obtain ⟨j, ht⟩ := mem_valuesOf.mp ht
      cases hsnapshot : t.snapshot with
      | none => simp [hsnapshot] at hid
      | some snapshot =>
        rw [hsnapshot] at hid
        obtain ⟨key, hkey⟩ := mem_valuesOf.mp hid
        refine ⟨.reservation j, snapshot.states, key, ?_, hkey⟩
        rw [StateManager.statesOf, ht, Option.bind_some, Transaction.reserved, hsnapshot]
        rfl
  · rintro ⟨x, s, key, hx, hkey⟩
    cases x with
    | process pid =>
      obtain ⟨p, hp, rfl⟩ := column_eq_some.mp hx
      exact .inl ⟨p, mem_valuesOf.mpr ⟨pid, hp⟩, mem_valuesOf.mpr ⟨key, hkey⟩⟩
    | reservation j =>
      obtain ⟨t, ht, hs⟩ := Option.bind_eq_some_iff.mp hx
      obtain ⟨snapshot, hsnapshot, rfl⟩ := Option.map_eq_some_iff.mp hs
      refine .inr ⟨t, mem_valuesOf.mpr ⟨j, ht⟩, ?_⟩
      rw [hsnapshot]
      exact mem_valuesOf.mpr ⟨key, hkey⟩

theorem get_collectObjects {o : Object} :
    m.collectObjects.objects[id]? = some o ↔ m.objects[id]? = some o ∧
      ∃ (x : Holder) (s : StateTable) (key : StateKey),
        m.statesOf x = some s ∧ s[key]? = some id := by
  rw [StateManager.collectObjects, get_filter_eq_some, List.contains_iff_mem, mem_liveObjects]

theorem collected_collectObjects (m : StateManager) :
    Collected m.collectObjects.statesOf m.collectObjects.objects :=
  fun _ _ ho => (get_collectObjects.mp ho).2

theorem statesOf_process_none (hpid : m.processes[pid]? = none) :
    m.statesOf (.process pid) = none :=
  column_eq_none.mpr hpid

theorem References.change (h : m.references) (hn : Numbering m) (hp : m.phases)
    (hchange : Change e m m') : m'.references := by
  cases hchange with
  | shutdown | connectControl | connectExec | execReady | commitExec | dropClient | noteExit
  | forgetRetired => exact h
  | connectRoot =>
    refine h.newHolder (x := .process m.nextPid) fun z => ?_
    cases z with
    | process pid =>
      refine (column_insert _ _ _ _ _).trans ?_
      simp only [Holder.process.injEq, eq_comm (a := pid)]
      rfl
    | reservation j => rw [if_neg Holder.reservation_ne]; rfl
  | connectFork hunknown htarget hfresh hroom ht hprepared hsnapshot =>
    exact h.move (statesOf_attachFork ht hsnapshot _ _)
  | park | bindLaunch | addModule | addExec | forgetExec =>
    exact h.of_eq (statesOf_congr (tableOf_modify _ (by intro _; rfl)) rfl) rfl
  | @addState _ client pid key object p howner hactive hnew hroom =>
    refine h.insertObject (.process pid) key ?_ (column_of_get _ howner.process)
      (fun z => ?_) (get_insert _ _ · _)
    · cases ho : m.objects[m.nextObject]? with
      | none => rfl
      | some o => exact absurd (hn.object _ o ho) (Nat.lt_irrefl _)
    · cases z with
      | process q =>
        refine (column_modify _ _ _ _ _).trans ?_
        simp only [Holder.process.injEq, eq_comm (a := q)]
        split
        · next heq =>
          subst heq
          rw [column_of_get _ howner.process]
        · rfl
      | reservation j => rw [if_neg Holder.reservation_ne]; rfl
  | setValue hevent howner hactive hkey =>
    obtain ⟨o, ho⟩ := h.defined (x := .process _) (column_of_get _ howner.process) hkey
    exact h.setValue ho (get_modify_of _ ho)
  | @reserveFork _ client pid requestKey parentPid next p token objects states howner hactive
      hkey hparent hkeys hroom hprocesses hpids hcopied hobjects =>
      refine h.copy (x := .process pid) (y := .reservation m.nextTransaction) hn.object
        (column_of_get _ howner.process) hcopied (fun z => ?_) ?_
      · cases z with
        | process q =>
          rw [if_neg Holder.process_ne]
          exact congrFun (tableOf_modify _ (by intro _; rfl)) q
        | reservation j =>
          refine (congrArg (Option.bind · Transaction.reserved) (get_insert _ _ _ _)).trans ?_
          simp only [Holder.reservation.injEq, eq_comm (a := j)]
          split <;> rfl
      · rw [StateManager.statesOf, hn.fork_fresh]
        rfl
  | forkReady =>
    exact h.of_eq (statesOf_congr rfl (funext (reservedTable_modify _ (by intro _; rfl)))) rfl
  | commitFork =>
    exact h.of_eq (statesOf_congr (tableOf_modify _ (by intro _; rfl))
      (funext (reservedTable_modify _ (by intro _; rfl)))) rfl
  | @abortFork id t hevent ht hpending =>
    have hobjects : (m.abortTransaction id).objects = m.objects := by
      rw [abortTransaction_of_pending ht hpending]
    rw [StateManager.references, hobjects]
    refine h.mono fun x s hx => ?_
    rw [statesOf_abortTransaction ht hpending] at hx
    split at hx
    · cases hx
    · exact hx
  | collect =>
    refine ⟨fun hx hkey => ?_, fun hx hy hkey hkey' ho => ?_⟩
    · obtain ⟨o, ho⟩ := h.defined hx hkey
      exact ⟨o, get_collectObjects.mpr ⟨ho, _, _, _, hx, hkey⟩⟩
    · exact h.exclusive hx hy hkey hkey' (get_collectObjects.mp ho).1
  | abortExec ht hpending => rw [abortExecTransaction_of_pending ht hpending]; exact h
  | forgetFork =>
    refine h.mono (statesOf_le_of_kept (fun q s hs => ?_) fun j u hu => ?_)
    · exact (congrFun (tableOf_modify _ (by intro _; rfl)) q).symm.trans hs
    rw [get_erase] at hu
    split at hu
    · cases hu
    · exact ⟨u, hu, rfl⟩
  | release => exact h.of_eq (statesOf_releaseReservations _) rfl
  | promote =>
    refine h.mono (statesOf_le_of_kept (fun q s hs => ?_) fun j u hu => ?_)
    · exact (congrFun (tableOf_modify _ (by intro _; rfl)) q).symm.trans hs
    · exact ⟨u, (get_filter_eq_some.mp hu).1, rfl⟩
  | @endProcess pid p status order records =>
    refine h.mono (statesOf_le_of_kept (fun q s hs => ?_) fun j u hu => ?_)
    · obtain ⟨p', hp', rfl⟩ := column_eq_some.mp hs
      have hended : (m.endProcess pid order records).processes[q]? = some p' := hp'
      obtain ⟨-, p₀, hp₀, rfl⟩ := (processes_endProcess m).mp hended
      exact column_of_get (fun p => p.snapshot.states) hp₀
    · have hended : (m.endProcess pid order records).transactions[j]? = some u := hu
      obtain ⟨t, ht, -, rfl⟩ := (transactions_endProcess m).mp hended
      exact ⟨t, ht, rfl⟩

/-! ## Collection -/

/-- Every object of the manager has a holder. -/
abbrev StateManager.collected (m : StateManager) : Prop := Collected m.statesOf m.objects

theorem collected_initial (h : Initial m) : m.collected := by
  cases h <;> exact ForAll.empty

theorem collected_of_le (h : m.collected)
    (hle : ∀ (x : Holder) (s : StateTable), m.statesOf x = some s → ∃ y : Holder,
      m'.statesOf y = some s) (hobjects : m'.objects = m.objects) : m'.collected := by
  rw [StateManager.collected, hobjects]
  refine h.mono fun id o ⟨x, s, key, hx, hkey⟩ => ?_
  obtain ⟨y, hy⟩ := hle x s hx
  exact ⟨y, s, key, hy, hkey⟩

theorem Phases.reserved_none (hp : m.phases) (ht : m.transactions[id]? = some t)
    (hterminal : t.state.terminal = true) : t.snapshot = none := by
  have hphase := hp.phase ht
  grind [Transaction.Phase]

theorem collected_change (h : m.collected) (hn : Numbering m) (hp : m.phases)
    (hchange : Change e m m') (hcollects : ¬ e.Collects) : m'.collected := by
  have hsame : m'.statesOf = m.statesOf → m'.objects = m.objects → m'.collected :=
    fun hstates hobjects =>
      collected_of_le h (fun x s hx => ⟨x, by rw [hstates]; exact hx⟩) hobjects
  have hends : ∀ client : ClientId, ¬ e.Ends m client := by
    rintro client (rfl | ⟨c, status, -, rfl⟩) <;> exact hcollects trivial
  cases hchange with
  | shutdown | connectControl | connectExec | execReady | commitExec => exact h
  | @connectRoot _ peer =>
    refine collected_of_le h (fun x s hx => ⟨x, ?_⟩) rfl
    cases x with
    | process pid =>
      refine (column_insert _ _ _ _ _).trans ?_
      rw [if_neg]
      · exact hx
      · rintro rfl
        rw [statesOf_process_none hn.process_fresh] at hx
        cases hx
    | reservation j => exact hx
  | @connectFork _ peer id t snapshot hunknown htarget hfresh hroom ht hprepared hsnapshot =>
    have hstates := statesOf_attachFork ht hsnapshot t.ticket.child peer
    have hchild : m.statesOf (.process t.ticket.child.pid) = none := by
      have hphase := hp.phase ht
      simp only [Transaction.Phase, hprepared] at hphase
      exact column_eq_none.mpr (column_eq_none.mp hphase.2)
    have hle : ∀ (x : Holder) (s : StateTable), m.statesOf x = some s → ∃ y : Holder,
        (m.attachFork id t.ticket.child peer snapshot).statesOf y = some s := by
      intro x s hx
      by_cases hx' : x = .reservation id
      · exact ⟨.process t.ticket.child.pid, by rw [hstates, if_pos rfl, ← hx', hx]⟩
      refine ⟨x, ?_⟩
      rw [hstates, if_neg, if_neg hx', hx]
      rintro rfl
      rw [hchild] at hx
      cases hx
    exact collected_of_le h hle rfl
  | park | bindLaunch | addModule | addExec | forgetExec =>
    exact hsame (statesOf_congr (tableOf_modify _ (by intro _; rfl)) rfl) rfl
  | @addState _ client pid key object p howner hactive hnew hroom =>
    have hpid : (m.addState pid key object).statesOf (.process pid) =
        some (p.snapshot.states.insert key m.nextObject) := by
      refine (column_modify _ _ _ _ _).trans ?_
      rw [if_pos rfl, column_of_get _ howner.process]
    refine ForAll.insert (h.mono fun id o hheld => ?_)
      ⟨.process pid, _, key, hpid, by rw [get_insert, if_pos rfl]⟩
    obtain ⟨x, s, k, hx, hkey⟩ := hheld
    by_cases hx' : x = .process pid
    · subst hx'
      have hs : m.statesOf (.process pid) = some p.snapshot.states :=
        column_of_get _ howner.process
      rw [hs] at hx
      cases hx
      refine ⟨.process pid, _, k, hpid, ?_⟩
      rw [get_insert, if_neg]
      · exact hkey
      · rintro rfl
        rw [hnew] at hkey
        cases hkey
    · refine ⟨x, s, k, ?_, hkey⟩
      cases x with
      | process q =>
        refine (column_modify _ _ _ _ _).trans ?_
        rw [if_neg fun heq => hx' (by rw [heq])]
        exact hx
      | reservation j => exact hx
  | setValue => exact h.modify fun _ _ hheld => hheld
  | @reserveFork _ client pid requestKey parentPid next p token objects states howner hactive
      hkey hparent hkeys hroom hprocesses hpids hcopied hobjects =>
      intro id o ho
      by_cases hnew : m.nextObject ≤ id
      · obtain ⟨key, hkey⟩ := hcopied.new hnew (hcopied.bound ho)
        refine ⟨.reservation m.nextTransaction, states, key, ?_, hkey⟩
        refine (congrArg (Option.bind · Transaction.reserved) (get_insert _ _ _ _)).trans ?_
        rw [if_pos rfl]
        rfl
      obtain ⟨x, s, key, hx, hkey⟩ :=
        h id o ((hcopied.old (Nat.lt_of_not_le hnew)).symm.trans ho)
      refine ⟨x, s, key, ?_, hkey⟩
      cases x with
      | process q => exact (congrFun (tableOf_modify _ (by intro _; rfl)) q).trans hx
      | reservation j =>
        refine (congrArg (Option.bind · Transaction.reserved) (get_insert _ _ _ _)).trans ?_
        rw [if_neg]
        · exact hx
        · rintro rfl
          rw [StateManager.statesOf, hn.fork_fresh] at hx
          cases hx
  | forkReady =>
    exact hsame (statesOf_congr rfl (funext (reservedTable_modify _ (by intro _; rfl)))) rfl
  | commitFork =>
    exact hsame (statesOf_congr (tableOf_modify _ (by intro _; rfl))
      (funext (reservedTable_modify _ (by intro _; rfl)))) rfl
  | abortFork hevent => exact absurd hevent hcollects
  | collect => exact collected_collectObjects m
  | abortExec ht hpending => rw [abortExecTransaction_of_pending ht hpending]; exact h
  | @forgetFork _ client pid id p t hevent howner ht hparent hterminal =>
    refine hsame (statesOf_congr (tableOf_modify _ (by intro _; rfl)) (funext fun j => ?_)) rfl
    refine (congrArg (Option.bind · Transaction.reserved) (get_erase _ _ _)).trans ?_
    split
    · next heq =>
      rw [StateManager.reservedTable, ← heq, ht, Option.bind_some, Transaction.reserved,
        hp.reserved_none ht hterminal]
      rfl
    · rfl
  | release hends' => exact absurd hends' (hends _)
  | dropClient hends' => exact absurd hends' (hends _)
  | noteExit hevent => exact absurd (by rw [hevent]; trivial) hcollects
  | promote hevent => exact absurd (by rw [hevent]; trivial) hcollects
  | endProcess hevent => exact absurd (by rw [hevent]; trivial) hcollects
  | forgetRetired hevent => exact absurd (by rw [hevent]; trivial) hcollects

end Kinakaze.Manager
