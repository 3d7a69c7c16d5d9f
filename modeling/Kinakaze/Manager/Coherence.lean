import Kinakaze.Manager.Authority
import Kinakaze.Manager.Records
import Kinakaze.Manager.References

/-!
# The invariant of the manager

`Coherent` gathers the invariants of the single tables.  Every effect keeps it,
so every sequence of effects does.
-/

namespace Kinakaze.Manager

open Kinakaze.Library Kinakaze.Protocol

structure Coherent (m : StateManager) : Prop where
  numbering : Numbering m
  phases : m.phases
  execsActive : m.execsActive
  authority : m.authority
  keys : m.keys
  exitLog : ExitLog m
  quotas : Quotas m
  references : m.references

theorem Coherent.initial {m : StateManager} (h : Initial m) : Coherent m where
  numbering := .initial h
  phases := .initial h
  execsActive := execsActive_initial h
  authority := .initial h
  keys := .initial h
  exitLog := .initial h
  quotas := .initial h
  references := .initial h

variable {m m' : StateManager} {e : Event}

variable (h : Coherent m)
include h

theorem Coherent.change (hchange : Change e m m') : Coherent m' where
  numbering := h.numbering.change hchange
  phases := h.phases.change h.numbering hchange
  execsActive := execsActive_change h.execsActive h.phases hchange
  authority := h.authority.change h.numbering h.phases hchange
  keys := h.keys.change h.numbering hchange
  exitLog := h.exitLog.change h.numbering h.phases hchange
  quotas := h.quotas.change h.numbering hchange
  references := h.references.change h.numbering h.phases hchange

theorem Coherent.steps (hsteps : Steps e m m') : Coherent m' :=
  hsteps.preserves (fun _ _ hm hchange => hm.change hchange) h

/-! ## What the invariant says about one process -/

variable {pid id : Nat} {p : Process}

theorem Coherent.pending_transaction (hp : m.processes[pid]? = some p)
    (hpending : p.state = .pending id) :
    ∃ t : Transaction, m.transactions[id]? = some t ∧ t.ticket.child.pid = pid :=
  h.phases.pendingFork (by rw [StateManager.stateOf, column_of_get _ hp, hpending])

theorem Coherent.fork_of_key {key : Nat} (hp : m.processes[pid]? = some p)
    (hkey : p.requestKeys[key]? = some id) :
    ∃ t : Transaction, m.transactions[id]? = some t ∧ t.parent = pid :=
  column_eq_some.mp (h.keys.fork pid p hp key id hkey)

theorem Coherent.exec_of_key {key : Nat} (hp : m.processes[pid]? = some p)
    (hkey : p.execRequestKeys[key]? = some id) :
    ∃ t : ExecTransaction, m.execTransactions[id]? = some t ∧ t.process = pid :=
  column_eq_some.mp (h.keys.exec pid p hp key id hkey)

theorem Coherent.object_of_key {key : StateKey} (hp : m.processes[pid]? = some p)
    (hkey : p.snapshot.states[key]? = some id) : ∃ o : Object, m.objects[id]? = some o :=
  h.references.defined (x := .process pid) (column_of_get _ hp) hkey

theorem Coherent.parent_live {t : Transaction} (ht : m.transactions[id]? = some t) :
    ∃ p : Process, m.processes[t.parent]? = some p ∧ p.state = .active :=
  column_eq_some.mp (h.phases.parentActive ht)

theorem Coherent.owns {client : ClientId} {peer : PeerIdentity}
    (hclient : m.clients[client]? = some ⟨peer, .worker pid⟩) :
    ∃ p : Process, m.Owns client pid p ∧ p.peer = peer := by
  obtain ⟨p, hp, rfl⟩ := column_eq_some.mp (h.authority.workerOwns hclient).1
  exact ⟨p, ⟨hclient, hp⟩, rfl⟩

theorem Coherent.child_live {t : Transaction} (ht : m.transactions[id]? = some t)
    (hready : t.state = .ready) : ∃ p : Process, m.processes[t.ticket.child.pid]? = some p := by
  have hphase := h.phases.phase ht
  simp only [Transaction.Phase, hready] at hphase
  obtain ⟨p, hp, -⟩ := column_eq_some.mp hphase.2
  exact ⟨p, hp⟩

omit h

end Kinakaze.Manager
