import Kinakaze.Library.Lineage
import Kinakaze.Manager.Runs

/-!
# Parent links

Every live process names a logical parent, and so does every child a fork has
reserved.  The links come from forks and from launches under a live process, and
the end of a process cuts the links to it.  Apart from a launch under a process
below the worker, every effect keeps all links leading to "no parent".
-/

namespace Kinakaze.Manager

open Kinakaze.Library Kinakaze.Protocol

variable {m m' : StateManager} {e : Event} {pid parentPid : Nat}

/-- The logical parent of each live process; `0` stands for none. -/
def StateManager.parentOf (m : StateManager) : Nat → Option Nat :=
  column m.processes fun p => p.identity.parentPid

/-- Following the parent links from `pid` ends at no parent. -/
def StateManager.Rooted (m : StateManager) (pid : Nat) : Prop :=
  ∃ path : List Nat, Lineage m.parentOf 0 pid path

/-- The links of the live processes and of the reserved children form a forest. -/
structure Forest (m : StateManager) : Prop where
  process : ∀ {pid parentPid : Nat}, m.parentOf pid = some parentPid → m.Rooted pid
  reserved : ∀ {id : Nat} {t : Transaction}, m.transactions[id]? = some t →
    t.state = .prepared → m.Rooted t.ticket.child.parentPid

theorem rooted_zero (m : StateManager) : m.Rooted 0 := ⟨[], .root⟩

theorem StateManager.Rooted.link (h : m.Rooted parentPid) (hne : pid ≠ 0)
    (hlink : m.parentOf pid = some parentPid) : m.Rooted pid := by
  obtain ⟨path, hpath⟩ := h
  exact ⟨pid :: path, .step hne hlink hpath⟩

theorem StateManager.Rooted.parent (h : m.Rooted pid) (hne : pid ≠ 0)
    (hlink : m.parentOf pid = some parentPid) : m.Rooted parentPid := by
  obtain ⟨path, hpath⟩ := h
  cases hpath with
  | root => exact absurd rfl hne
  | step _ hlink' hrest =>
    rw [hlink] at hlink'
    cases hlink'
    exact ⟨_, hrest⟩

theorem Numbering.parentOf_zero (h : Numbering m) : m.parentOf 0 = none := by
  refine column_eq_none.mpr ?_
  cases hp : m.processes[0]? with
  | none => rfl
  | some p => exact absurd (h.process 0 p hp).1 (Nat.not_succ_le_zero 0)

theorem Numbering.live_ne_zero (h : Numbering m) (hlink : m.parentOf pid = some parentPid) :
    pid ≠ 0 := by
  rintro rfl
  rw [h.parentOf_zero] at hlink
  cases hlink

/-! ## Effects on the links -/

/-- No reservation of `m'` is new. -/
def KeepsReserved (m m' : StateManager) : Prop :=
  ∀ (j : Nat) (u : Transaction), m'.transactions[j]? = some u → u.state = .prepared →
    ∃ t : Transaction, m.transactions[j]? = some t ∧ t.state = .prepared ∧
      u.ticket.child.parentPid = t.ticket.child.parentPid

theorem KeepsReserved.of_eq (h : m'.transactions = m.transactions) : KeepsReserved m m' := by
  intro j u hu hprepared
  exact ⟨u, h ▸ hu, hprepared, rfl⟩

theorem KeepsReserved.of_modify {id : Nat} {f : Transaction → Transaction}
    (hf : ∀ t : Transaction, (f t).state ≠ .prepared)
    (h : m'.transactions = m.transactions.modify id f) : KeepsReserved m m' := by
  intro j u hu hprepared
  rw [h, get_modify] at hu
  split at hu
  · obtain ⟨t, -, rfl⟩ := Option.map_eq_some_iff.mp hu
    exact absurd hprepared (hf t)
  · exact ⟨u, hu, hprepared, rfl⟩

theorem KeepsReserved.of_subset (h : ∀ (j : Nat) (u : Transaction), m'.transactions[j]? = some u →
      m.transactions[j]? = some u) : KeepsReserved m m' :=
  fun j u hu hprepared => ⟨u, h j u hu, hprepared, rfl⟩

theorem Forest.congr (h : Forest m) (hlinks : m'.parentOf = m.parentOf)
    (hforks : KeepsReserved m m') : Forest m' where
  process hlink := by
    rw [StateManager.Rooted, hlinks]
    exact h.process (hlinks ▸ hlink)
  reserved hu hprepared := by
    obtain ⟨t, ht, hstate, hparent⟩ := hforks _ _ hu hprepared
    rw [StateManager.Rooted, hlinks, hparent]
    exact h.reserved ht hstate

theorem Forest.grow (h : Forest m) (hforks : KeepsReserved m m')
    (hkeep : ∀ a : Nat, m.Rooted a → m'.Rooted a) {child : Nat} (hchild : m'.Rooted child)
    (hlinks : ∀ b : Nat, b ≠ child → m'.parentOf b = m.parentOf b) : Forest m' where
  process {b c} hlink := by
    by_cases hb : b = child
    · exact hb ▸ hchild
    · rw [hlinks b hb] at hlink
      exact hkeep b (h.process hlink)
  reserved hu hprepared := by
    obtain ⟨t, ht, hstate, hparent⟩ := hforks _ _ hu hprepared
    rw [hparent]
    exact hkeep _ (h.reserved ht hstate)

theorem Forest.attach (h : Forest m) (child : Nat) (hforks : KeepsReserved m m')
    (hnew : m.parentOf child = none) (hne : child ≠ 0) (hparent : m.Rooted parentPid)
    (hlinks : ∀ b : Nat,
      m'.parentOf b = if b = child then some parentPid else m.parentOf b) : Forest m' := by
  have hkeep : ∀ a : Nat, m.Rooted a → m'.Rooted a := fun a ha =>
    ha.imp fun _ hpath => hpath.insert hnew hlinks
  refine h.grow hforks hkeep ((hkeep _ hparent).link hne ?_) fun b hb => ?_
  · rw [hlinks, if_pos rfl]
  · rw [hlinks, if_neg hb]

/-- Process `pid` moves under a process that is not below it. -/
theorem Forest.relink (h : Forest m) (hforks : KeepsReserved m m') (hne : pid ≠ 0)
    {above : List Nat} (hparent : Lineage m.parentOf 0 parentPid above) (hnot : pid ∉ above)
    (hlive : m.Rooted pid)
    (hlinks : ∀ b : Nat, m'.parentOf b = if b = pid then some parentPid else m.parentOf b) :
    Forest m' := by
  have hkeep : ∀ a : Nat, m.Rooted a → m'.Rooted a := by
    rintro a ⟨path, hpath⟩
    exact hpath.relink hne hparent hnot hlinks
  refine h.grow hforks hkeep (hkeep pid hlive) fun b hb => ?_
  rw [hlinks, if_neg hb]

theorem parentOf_endProcess (order : List Nat) (records : Table Int) (b : Nat) :
    (m.endProcess pid order records).parentOf b = if b = pid then none
      else (m.parentOf b).map fun c => if c = pid then 0 else c := by
  change ((m.processes.erase pid).map fun _ p =>
    { p with identity := reparent p.identity pid })[b]?.map _ = _
  rw [get_map, get_erase]
  by_cases hb : b = pid
  · simp [hb]
  rw [if_neg (Ne.symm hb), if_neg hb, StateManager.parentOf, column]
  cases m.processes[b]? with
  | none => rfl
  | some p =>
    simp only [Option.map_some, reparent]
    split <;> rfl

theorem Forest.remove (h : Forest m) (order : List Nat) (records : Table Int) :
    Forest (m.endProcess pid order records) := by
  have hkeep : ∀ a : Nat, a ≠ pid → m.Rooted a → (m.endProcess pid order records).Rooted a := by
    rintro a ha ⟨path, hpath⟩
    exact hpath.remove ha fun b hb => by rw [parentOf_endProcess, if_neg hb]
  refine ⟨fun {a b} hlink => ?_, fun {j u} hu hprepared => ?_⟩
  · rw [parentOf_endProcess] at hlink
    split at hlink
    · cases hlink
    · next hne =>
      obtain ⟨c, hc, -⟩ := Option.map_eq_some_iff.mp hlink
      exact hkeep a hne (h.process hc)
  · obtain ⟨t, ht, -, rfl⟩ := (transactions_endProcess m).mp hu
    have hrooted := h.reserved ht hprepared
    change StateManager.Rooted _ (reparent t.ticket.child pid).parentPid
    unfold reparent
    split
    · exact rooted_zero _
    · next hne => exact hkeep _ hne hrooted

/-! ## Every effect -/

/-- The call asks for a launch under a live process. -/
def Event.Rebinds : Event → Prop
  | .handle _ (.activatePoolWorkerUnderParent _ _ _) _ => True
  | _ => False

theorem parentOf_modify {f : Process → Process} (h : m'.processes = m.processes.modify pid f)
    (hf : ∀ p : Process, (f p).identity = p.identity) : m'.parentOf = m.parentOf := by
  rw [StateManager.parentOf, h]
  exact column_modify_eq _ _ fun p => by rw [hf]

theorem parentOf_bindLaunch (client : ClientId) (launch : PoolLaunch) {p : Process}
    (hp : m.processes[pid]? = some p) (parentPid b : Nat) :
    (m.bindLaunch pid parentPid client launch).parentOf b =
      if b = pid then some parentPid else m.parentOf b := by
  rw [StateManager.parentOf, StateManager.bindLaunch, column_modify]
  by_cases hb : b = pid
  · subst hb
    rw [if_pos rfl, if_pos rfl, column_of_get _ hp]
  · rw [if_neg (Ne.symm hb), if_neg hb]
    rfl

theorem Forest.initial (h : Initial m) : Forest m := by
  cases h <;> exact ⟨by simp [StateManager.parentOf, column, StateManager.withLimits,
    StateManager.forProcessTree, StateManager.new], by simp [StateManager.withLimits,
    StateManager.forProcessTree, StateManager.new]⟩

theorem Forest.change (h : Forest m) (hc : Coherent m) (hchange : Change e m m')
    (hbinds : ¬ e.Rebinds) : Forest m' := by
  cases hchange with
  | shutdown | connectControl | connectExec | setValue | collect | execReady | commitExec
  | dropClient | noteExit | forgetRetired => exact h.congr rfl (.of_eq rfl)
  | @connectRoot _ peer =>
    refine h.attach m.nextPid (.of_eq rfl) ?_ ?_ (rooted_zero m) fun b => ?_
    · exact column_eq_none.mpr hc.numbering.process_fresh
    · exact Nat.ne_of_gt hc.numbering.pids.1
    · refine (column_insert _ _ _ _ _).trans ?_
      simp only [eq_comm (a := b)]
      rfl
  | @connectFork _ peer id t snapshot hunknown htarget hfresh hroom ht hprepared hsnapshot =>
    have hphase := hc.phases.phase ht
    simp only [Transaction.Phase, hprepared] at hphase
    refine h.attach t.ticket.child.pid
      (.of_modify (f := fun t => { t with snapshot := none, state := .adopted })
        (fun _ h => by cases h) rfl) ?_ ?_ (h.reserved ht hprepared) fun b => ?_
    · exact column_eq_none.mpr (column_eq_none.mp hphase.2)
    · exact Nat.ne_of_gt (hc.numbering.fork id t ht).2.2.1
    · refine (column_insert _ _ _ _ _).trans ?_
      simp only [eq_comm (a := b)]
      rfl
  | park | addModule | addState | addExec | forgetExec =>
    exact h.congr (parentOf_modify rfl fun _ => rfl) (.of_eq rfl)
  | @bindLaunch _ client c pid parentPid p launch hevent hclient hcontrol hp =>
    obtain rfl : parentPid = 0 := hevent.resolve_right <| by
      rintro ⟨_, heq⟩
      exact hbinds (heq ▸ trivial)
    have hlink : m.parentOf pid = some p.identity.parentPid := column_of_get _ hp
    exact h.relink (.of_eq rfl) (hc.numbering.live_ne_zero hlink) .root List.not_mem_nil
      (h.process hlink) (parentOf_bindLaunch client launch hp 0)
  | @reserveFork _ client pid requestKey parentPid next p token objects states howner hactive hkey
      hparent =>
      have hlinks : (m.reserveFork pid requestKey parentPid token objects next
          { p.snapshot with states := states }).parentOf = m.parentOf :=
        parentOf_modify rfl fun _ => rfl
      have hlink : m.parentOf pid = some p.identity.parentPid := column_of_get _ howner.process
      have hrooted : m.Rooted parentPid := by
        rcases hparent with rfl | rfl
        · exact h.process hlink
        · exact (h.process hlink).parent (hc.numbering.live_ne_zero hlink) hlink
      refine ⟨fun hlink => ?_, fun {j u} hu hprepared => ?_⟩
      · rw [StateManager.Rooted, hlinks]
        exact h.process (hlinks ▸ hlink)
      · rw [StateManager.Rooted, hlinks]
        have hu' := (get_insert _ _ _ _).symm.trans hu
        split at hu'
        · cases hu'
          exact hrooted
        · exact h.reserved hu' hprepared
  | forkReady =>
    exact h.congr rfl (.of_modify (f := fun t => { t with state := .ready })
      (fun _ h => by cases h) rfl)
  | commitFork =>
    exact h.congr (parentOf_modify rfl fun _ => rfl)
      (.of_modify (f := fun t => { t with state := .committed }) (fun _ h => by cases h) rfl)
  | abortFork hevent ht hpending =>
    rw [abortTransaction_of_pending ht hpending]
    exact h.congr (parentOf_modify rfl fun _ => rfl)
      (.of_modify (f := fun t => { t with state := .aborted, snapshot := none })
        (fun _ h => by cases h) rfl)
  | abortExec ht hpending =>
    rw [abortExecTransaction_of_pending ht hpending]
    exact h.congr rfl (.of_eq rfl)
  | forgetFork =>
    refine h.congr (parentOf_modify rfl fun _ => rfl) (.of_subset fun j u hu => ?_)
    have hu' := (get_erase _ _ _).symm.trans hu
    split at hu'
    · cases hu'
    · exact hu'
  | release =>
    exact h.congr (column_map_eq _ fun _ _ => by split <;> rfl) (.of_eq rfl)
  | promote =>
    exact h.congr (parentOf_modify rfl fun _ => rfl)
      (.of_subset fun j u hu => (get_filter_eq_some.mp hu).1)
  | endProcess => exact h.remove _ _

end Kinakaze.Manager
