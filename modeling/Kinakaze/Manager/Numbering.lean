import Kinakaze.Manager.Change

/-!
# Numbers are never reused

The manager hands out four kinds of numbers, each from a counter that only
grows.  Whatever a table mentions was handed out before, so the next number of
each kind is unknown everywhere.
-/

namespace Kinakaze.Manager

open Kinakaze.Library Kinakaze.Protocol

/-- The exec transaction a connection was opened or retired for. -/
def ClientKind.transaction : ClientKind → Option Nat
  | .execCandidate _ id | .retired _ id => some id
  | _ => none

/-- Every number in use is below its counter, and identities carry their own. -/
structure Numbering (m : StateManager) : Prop where
  pids : 1 ≤ m.nextPid ∧ m.nextPid ≤ i32Max + 1
  client : ForAll m.clients fun i c => i < m.nextClient ∧
    ∀ id : Nat, c.kind.transaction = some id → id < m.nextTransaction
  process : ForAll m.processes fun pid p =>
    1 ≤ pid ∧ pid < m.nextPid ∧ p.identity.pid = pid
  fork : ForAll m.transactions fun id t => id < m.nextTransaction ∧
    t.ticket.transaction = id ∧ 1 ≤ t.ticket.child.pid ∧ t.ticket.child.pid < m.nextPid
  exec : ForAll m.execTransactions fun id t => id < m.nextTransaction ∧
    t.owner < m.nextClient ∧ ∀ c : ClientId, t.candidate = some c → c < m.nextClient
  object : ForAll m.objects fun id _ => id < m.nextObject
  exit : ForAll m.exitRecords fun pid _ => pid < m.nextPid

theorem Numbering.initial {m : StateManager} (h : Initial m) : Numbering m := by
  have hpids : 1 ≤ 1 ∧ 1 ≤ i32Max + 1 := by decide
  cases h <;> exact ⟨hpids, .empty, .empty, .empty, .empty, .empty, .empty⟩

variable {m m' : StateManager} {e : Event}

/-! ## The next numbers are unknown -/

section

variable (h : Numbering m)
include h

theorem Numbering.client_fresh : m.clients[m.nextClient]? = none := by
  cases hc : m.clients[m.nextClient]? with
  | none => rfl
  | some c => exact absurd (h.client _ c hc).1 (Nat.lt_irrefl _)

theorem Numbering.candidate_fresh {id : Nat} {t : ExecTransaction}
    (ht : m.execTransactions[id]? = some t) : t.candidate ≠ some m.nextClient :=
  fun hc => Nat.lt_irrefl _ ((h.exec id t ht).2.2 _ hc)

theorem Numbering.process_fresh : m.processes[m.nextPid]? = none := by
  cases hp : m.processes[m.nextPid]? with
  | none => rfl
  | some p => exact absurd (h.process _ p hp).2.1 (Nat.lt_irrefl _)

theorem Numbering.fork_fresh : m.transactions[m.nextTransaction]? = none := by
  cases ht : m.transactions[m.nextTransaction]? with
  | none => rfl
  | some t => exact absurd (h.fork _ t ht).1 (Nat.lt_irrefl _)

theorem Numbering.exec_fresh : m.execTransactions[m.nextTransaction]? = none := by
  cases ht : m.execTransactions[m.nextTransaction]? with
  | none => rfl
  | some t => exact absurd (h.exec _ t ht).1 (Nat.lt_irrefl _)

theorem Numbering.kind_fresh {i : ClientId} {c : Client}
    (hc : m.clients[i]? = some c) : c.kind.transaction ≠ some m.nextTransaction :=
  fun hid => Nat.lt_irrefl _ ((h.client i c hc).2 _ hid)

/-! ## Effects -/

theorem Numbering.addClient (peer : PeerIdentity) {kind : ClientKind}
    (hkind : ∀ id : Nat, kind.transaction = some id → id < m.nextTransaction) :
    Numbering (m.addClient peer kind) :=
  { h with
    client := (h.client.mono fun _ _ hi => ⟨Nat.lt_succ_of_lt hi.1, hi.2⟩).insert
      ⟨Nat.lt_succ_self _, hkind⟩
    exec := h.exec.mono fun _ _ ht =>
      ⟨ht.1, Nat.lt_succ_of_lt ht.2.1, fun c hc => Nat.lt_succ_of_lt (ht.2.2 c hc)⟩ }

theorem Numbering.nextPid (hpids : m.nextPid ≤ i32Max) :
    Numbering { m with nextPid := m.nextPid + 1 } :=
  { h with
    pids := ⟨Nat.le_add_left 1 _, Nat.succ_le_succ hpids⟩
    process := h.process.mono fun _ _ hp => ⟨hp.1, Nat.lt_succ_of_lt hp.2.1, hp.2.2⟩
    fork := h.fork.mono fun _ _ ht =>
      ⟨ht.1, ht.2.1, ht.2.2.1, Nat.lt_succ_of_lt ht.2.2.2⟩
    exit := h.exit.mono fun _ _ hs => Nat.lt_succ_of_lt hs }

end

theorem recorded_forAll {P : Nat → Int → Prop} {maxRecords pid : Nat} {status : Int}
    {order order' : List Nat} {records records' : Table Int} (hP : P pid status)
    (h : ForAll records P)
    (hrecorded : Recorded maxRecords pid status order records order' records') :
    ForAll records' P := by
  have hexpire : ∀ (order kept : List Nat) (records rest : Table Int), ForAll records P →
      expireExitRecords maxRecords order records = some (kept, rest) → ForAll rest P := by
    intro order
    induction order with
    | nil =>
      intro kept records rest h hexpired
      unfold expireExitRecords at hexpired
      split at hexpired
      · cases hexpired; exact h
      · cases hexpired
    | cons expired order ih =>
      intro kept records rest h hexpired
      unfold expireExitRecords at hexpired
      split at hexpired
      · cases hexpired; exact h
      · exact ih kept _ rest (h.erase expired) hexpired
  rcases hrecorded with ⟨-, -, rfl⟩ | ⟨-, kept, rest, hkept, -, rfl⟩
  · exact h
  · exact (hexpire order kept records rest h hkept).insert hP

theorem Numbering.change (h : Numbering m) (hchange : Change e m m') : Numbering m' := by
  cases hchange with
  | shutdown | forgetRetired => exact { h with }
  | connectControl hkind hunknown htarget hhelper hroom =>
    refine h.addClient _ fun id hid => ?_
    rcases hkind with rfl | hkind
    · cases hid
    · cases ‹ClientKind› <;> simp_all [ClientKind.isControl, ClientKind.transaction]
  | @connectRoot _ peer hunknown htarget hfresh hroom hprocesses hpids =>
    have hnext := h.nextPid hpids
    have hroot : Numbering
        ({ m with nextPid := m.nextPid + 1 }.addRoot ⟨m.epoch, m.nextPid, 1, 0⟩ peer) :=
      { hnext with process := hnext.process.insert ⟨h.pids.1, Nat.lt_succ_self _, rfl⟩ }
    exact hroot.addClient _ nofun
  | @connectFork _ peer id t snapshot hunknown htarget hfresh hroom ht hprepared hsnapshot =>
    obtain ⟨-, -, hlow, hhigh⟩ := h.fork _ _ ht
    have hattach : Numbering (m.attachFork id t.ticket.child peer snapshot) :=
      { h with
        process := h.process.insert ⟨hlow, hhigh, rfl⟩
        fork := h.fork.modify fun _ _ hu => hu }
    exact hattach.addClient _ nofun
  | @connectExec _ peer id t hunknown hfresh hroom ht htarget hprepared =>
    have hnext : Numbering (m.addClient peer (.execCandidate t.process id)) :=
      h.addClient peer fun i hi => by cases hi; exact (h.exec _ _ ht).1
    refine { hnext with exec := hnext.exec.modify fun u _ hu => ?_ }
    exact ⟨hu.1, hu.2.1, fun c hc => by cases hc; exact Nat.lt_succ_self _⟩
  | park hp hpark => exact { h with process := h.process.modify fun _ _ hp => hp }
  | bindLaunch | addModule => exact { h with process := h.process.modify fun _ _ hp => hp }
  | addState howner hactive hnew hroom =>
    exact { h with
      process := h.process.modify fun _ _ hp => hp
      object := (h.object.mono fun _ _ ho => Nat.lt_succ_of_lt ho).insert (Nat.lt_succ_self _) }
  | setValue => exact { h with object := h.object.modify fun _ _ ho => ho }
  | reserveFork howner hactive hkey hparent hkeys hroom hprocesses hpids hcopied hobjects =>
    have hnext := h.nextPid hpids
    exact { hnext with
      client := hnext.client.mono fun _ _ hi =>
        ⟨hi.1, fun id hid => Nat.lt_succ_of_lt (hi.2 id hid)⟩
      process := hnext.process.modify fun _ _ hp => hp
      fork := (hnext.fork.mono fun _ _ ht =>
        ⟨Nat.lt_succ_of_lt ht.1, ht.2⟩).insert
          ⟨Nat.lt_succ_self _, rfl, h.pids.1, Nat.lt_succ_self _⟩
      exec := hnext.exec.mono fun _ _ ht => ⟨Nat.lt_succ_of_lt ht.1, ht.2⟩
      object := fun _ _ ho => hcopied.bound ho }
  | forkReady => exact { h with fork := h.fork.modify fun _ _ ht => ht }
  | commitFork =>
    exact { h with
      process := h.process.modify fun _ _ hp => hp
      fork := h.fork.modify fun _ _ ht => ht }
  | abortFork hevent ht hpending =>
    rw [abortTransaction_of_pending ht hpending]
    exact { h with
      process := h.process.modify fun _ _ hp => hp
      fork := h.fork.modify fun _ _ ht => ht }
  | collect => exact { h with object := h.object.filter _ }
  | addExec howner hactive hkey hidle hunknown htarget hfresh hkeys hroom hretirement =>
    exact { h with
      client := h.client.mono fun _ _ hi =>
        ⟨hi.1, fun id hid => Nat.lt_succ_of_lt (hi.2 id hid)⟩
      process := h.process.modify fun _ _ hp => hp
      fork := h.fork.mono fun _ _ ht => ⟨Nat.lt_succ_of_lt ht.1, ht.2⟩
      exec := (h.exec.mono fun _ _ ht => ⟨Nat.lt_succ_of_lt ht.1, ht.2⟩).insert
        ⟨Nat.lt_succ_self _, (h.client _ _ howner.connected).1, by intro c hc; cases hc⟩ }
  | execReady | noteExit => exact { h with exec := h.exec.modify fun _ _ ht => ht }
  | commitExec hevent howner ht hprocess hclient hready =>
    exact { h with
      client := h.client.modify fun _ _ hi =>
        ⟨hi.1, fun id hid => by cases hid; exact (h.exec _ _ ht).1⟩
      exec := h.exec.modify fun _ _ ht => ht }
  | abortExec ht hpending =>
    rw [abortExecTransaction_of_pending ht hpending]
    exact { h with exec := h.exec.modify fun _ _ ht => ht }
  | forgetFork =>
    exact { h with
      process := h.process.modify fun _ _ hp => hp
      fork := h.fork.erase _ }
  | forgetExec =>
    exact { h with
      process := h.process.modify fun _ _ hp => hp
      exec := h.exec.erase _ }
  | release =>
    refine { h with process := h.process.map fun pid p hp => ?_ }
    split <;> exact hp
  | dropClient => exact { h with client := h.client.erase _ }
  | promote =>
    refine { h with
      client := ?_
      process := h.process.modify fun _ _ hp => hp
      fork := h.fork.filter _
      exec := h.exec.filter _ }
    unfold StateManager.promote
    dsimp only
    split
    · exact h.client.modify fun _ _ hi => ⟨hi.1, by intro id hid; cases hid⟩
    · exact h.client
  | endProcess hevent hp hfresh hforks hexecs hrecorded =>
    exact { h with
      process := (h.process.erase _).map fun pid p hq => by
        unfold reparent; split <;> exact hq
      fork := (h.fork.map fun id t ht => by
        unfold reparent; split <;> exact ht).filter _
      exec := h.exec.filter _
      exit := recorded_forAll (h.process _ _ hp).2.1 h.exit hrecorded }

end Kinakaze.Manager
