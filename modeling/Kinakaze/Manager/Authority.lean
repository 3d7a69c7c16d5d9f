import Kinakaze.Manager.Phases

/-!
# Who speaks for a process

The authority over a Linux process is spread over the kind of a connection, the
native owner of the process, the set of retired identities and the exec
transactions.  `Authority` is what ties them together: a native identity has at
most one role, a worker connection has the identity of the owner of its process
and that identity is not retired, and a committed exec has retired the owner.

The invariant mentions only these four components, so an effect on anything else
keeps it without an argument.
-/

namespace Kinakaze.Manager

open Kinakaze.Library Kinakaze.Protocol

/-- What the state of an exec transaction says about its other fields. -/
structure ExecTransaction.WellFormed (t : ExecTransaction) : Prop where
  vacant : t.state = .prepared → t.candidate = none
  attached : t.state ≠ .prepared → t.state ≠ .aborted → t.candidate ≠ none
  retiringIff : t.retiring = true ↔ t.state = .committed
  noted : t.candidateExit ≠ none → t.state = .committed

/-- A native identity has one role: the owner of one process, the target of one
exec, a retired image, or none of these. -/
structure Authority (clients : Table Client) (peerOf : Nat → Option PeerIdentity)
    (execs : Table ExecTransaction) (retired : Finset PeerIdentity) : Prop where
  peersDistinct : ∀ {p q : Nat} {x : PeerIdentity}, peerOf p = some x → peerOf q = some x → p = q
  clientsDistinct : ∀ {i j : ClientId} {c d : Client}, clients[i]? = some c →
    clients[j]? = some d → c.peer = d.peer → c.kind.isControl = false → i = j
  workerOwns : ∀ {i : ClientId} {x : PeerIdentity} {pid : Nat},
    clients[i]? = some ⟨x, .worker pid⟩ → peerOf pid = some x ∧ x ∉ retired
  ownerKind : ∀ {i : ClientId} {c : Client} {pid : Nat}, clients[i]? = some c →
    peerOf pid = some c.peer → c.kind = .worker pid ∨ ∃ id : Nat, c.kind = .retired pid id
  candidateKnown : ∀ {i : ClientId} {x : PeerIdentity} {pid id : Nat},
    clients[i]? = some ⟨x, .execCandidate pid id⟩ →
    x ∈ retired ∨ ∃ t : ExecTransaction, execs[id]? = some t ∧ t.state ≠ .aborted
  candidateOf : ∀ {i : ClientId} {x : PeerIdentity} {pid id : Nat} {t : ExecTransaction},
    clients[i]? = some ⟨x, .execCandidate pid id⟩ → execs[id]? = some t →
    t.process = pid ∧ t.target = x ∧ t.candidate = some i
  retiredOf : ∀ {i : ClientId} {x : PeerIdentity} {pid id : Nat} {t : ExecTransaction},
    clients[i]? = some ⟨x, .retired pid id⟩ → execs[id]? = some t →
    t.process = pid ∧ t.owner = i ∧ t.ownerPeer = x ∧ t.state = .committed
  targetClient : ∀ {i : ClientId} {c : Client} {id : Nat} {t : ExecTransaction},
    execs[id]? = some t → clients[i]? = some c → c.peer = t.target →
    c.kind = .execCandidate t.process id ∧ t.candidate = some i
  execOwner : ∀ {id : Nat} {t : ExecTransaction}, execs[id]? = some t →
    peerOf t.process = some t.ownerPeer
  targetUnowned : ∀ {id pid : Nat} {t : ExecTransaction}, execs[id]? = some t →
    peerOf pid ≠ some t.target
  targetsDistinct : ∀ {id jd : Nat} {t u : ExecTransaction}, execs[id]? = some t →
    execs[jd]? = some u → t.target = u.target → id = jd
  execUnique : ∀ {id jd : Nat} {t u : ExecTransaction}, execs[id]? = some t →
    execs[jd]? = some u → t.process = u.process →
    t.state ≠ .aborted → u.state ≠ .aborted → id = jd
  wellFormed : ∀ {id : Nat} {t : ExecTransaction}, execs[id]? = some t → t.WellFormed
  pendingOwner : ∀ {id : Nat} {t : ExecTransaction}, execs[id]? = some t →
    t.state.terminal = false → clients[t.owner]? = some ⟨t.ownerPeer, .worker t.process⟩
  pendingCandidate : ∀ {id : Nat} {t : ExecTransaction} {c : ClientId},
    execs[id]? = some t → t.state.terminal = false → t.candidate = some c →
    clients[c]? = some ⟨t.target, .execCandidate t.process id⟩
  committedCandidate : ∀ {id : Nat} {t : ExecTransaction} {c : ClientId} {d : Client},
    execs[id]? = some t → t.state = .committed → t.candidate = some c →
    clients[c]? = some d → d = ⟨t.target, .execCandidate t.process id⟩
  ownerRetired : ∀ {id : Nat} {t : ExecTransaction}, execs[id]? = some t →
    t.state = .committed → t.ownerPeer ∈ retired
  targetFree : ∀ {id : Nat} {t : ExecTransaction}, execs[id]? = some t →
    t.state ≠ .aborted → t.target ∉ retired

/-! ## Effects on the four components -/

section Components

variable {clients clients' : Table Client} {peerOf peerOf' : Nat → Option PeerIdentity}
  {execs execs' : Table ExecTransaction} {retired retired' : Finset PeerIdentity}

variable {peer : PeerIdentity} {i owner : ClientId}

/-- A connection without a process. -/
theorem Authority.addClient (h : Authority clients peerOf execs retired) {kind : ClientKind}
    (hkind : kind = .helper ∨ kind.isControl = true)
    (hunowned : ∀ pid : Nat, peerOf pid ≠ some peer)
    (hcontrol : ∀ (i : ClientId) (c : Client), clients[i]? = some c → c.peer = peer →
      c.kind.isControl = true) (hnotRetired : peer ∉ retired)
    (htarget : ∀ (id : Nat) (t : ExecTransaction), execs[id]? = some t → t.target ≠ peer)
    (hfresh : kind = .helper → ∀ (j : ClientId) (c : Client), clients[j]? = some c → c.peer ≠ peer)
    (hi : clients[i]? = none)
    (hcandidate : ∀ (id : Nat) (t : ExecTransaction), execs[id]? = some t → t.candidate ≠ some i)
    (hclients : ∀ j : ClientId, clients'[j]? = if i = j then some ⟨peer, kind⟩ else clients[j]?) :
    Authority clients' peerOf execs retired := by
  exact { h with
    clientsDistinct := by grind [@h.clientsDistinct]
    workerOwns := by grind [@h.workerOwns]
    ownerKind := by grind [@h.ownerKind]
    candidateKnown := by grind [@h.candidateKnown]
    candidateOf := by grind [@h.candidateOf]
    retiredOf := by grind [@h.retiredOf]
    targetClient := by grind [@h.targetClient]
    pendingOwner := by grind [@h.pendingOwner]
    pendingCandidate := by grind [@h.pendingCandidate]
    committedCandidate := by grind [@h.committedCandidate] }

variable {pid id : Nat}

/-- A new worker and its new process. -/
theorem Authority.addWorker (h : Authority clients peerOf execs retired)
    (hunowned : ∀ pid : Nat, peerOf pid ≠ some peer) (hnotRetired : peer ∉ retired)
    (htarget : ∀ (id : Nat) (t : ExecTransaction), execs[id]? = some t → t.target ≠ peer)
    (hfresh : ∀ (j : ClientId) (c : Client), clients[j]? = some c → c.peer ≠ peer)
    (hpid : peerOf pid = none) (hi : clients[i]? = none)
    (hcandidate : ∀ (id : Nat) (t : ExecTransaction), execs[id]? = some t → t.candidate ≠ some i)
    (hclients : ∀ j : ClientId, clients'[j]? =
      if i = j then some ⟨peer, .worker pid⟩ else clients[j]?)
    (hpeers : ∀ q : Nat, peerOf' q = if pid = q then some peer else peerOf q) :
    Authority clients' peerOf' execs retired := by
  exact { h with
    peersDistinct := by grind [@h.peersDistinct]
    clientsDistinct := by grind [@h.clientsDistinct]
    workerOwns := by grind [@h.workerOwns]
    ownerKind := by grind [@h.ownerKind]
    candidateKnown := by grind [@h.candidateKnown]
    candidateOf := by grind [@h.candidateOf]
    retiredOf := by grind [@h.retiredOf]
    targetClient := by grind [@h.targetClient]
    execOwner := by grind [@h.execOwner]
    targetUnowned := by grind [@h.targetUnowned]
    pendingOwner := by grind [@h.pendingOwner]
    pendingCandidate := by grind [@h.pendingCandidate]
    committedCandidate := by grind [@h.committedCandidate] }

variable {t : ExecTransaction}

section

variable (h : Authority clients peerOf execs retired)
include h

theorem Authority.attachCandidate (hunowned : ∀ pid : Nat, peerOf pid ≠ some peer)
    (hfresh : ∀ (j : ClientId) (c : Client), clients[j]? = some c → c.peer ≠ peer)
    (ht : execs[id]? = some t) (htarget : t.target = peer) (hprepared : t.state = .prepared)
    (hi : clients[i]? = none)
    (hcandidate : ∀ (id : Nat) (t : ExecTransaction), execs[id]? = some t → t.candidate ≠ some i)
    (hclients : ∀ j : ClientId, clients'[j]? =
      if i = j then some ⟨peer, .execCandidate t.process id⟩ else clients[j]?)
    (hexecs : ∀ j : Nat, execs'[j]? =
      if id = j then some { t with candidate := some i, state := .adopted } else execs[j]?) :
    Authority clients' peerOf execs' retired := by
  exact { h with
    clientsDistinct := by grind [@h.clientsDistinct]
    workerOwns := by grind [@h.workerOwns]
    ownerKind := by grind [@h.ownerKind]
    candidateKnown := by grind [@h.candidateKnown]
    candidateOf := by grind [@h.candidateOf, @h.targetsDistinct]
    retiredOf := by grind [@h.retiredOf]
    targetClient := by grind [@h.targetClient, @h.targetsDistinct]
    execOwner := by grind [@h.execOwner]
    targetUnowned := by grind [@h.targetUnowned]
    targetsDistinct := by grind [@h.targetsDistinct]
    execUnique := by grind [@h.execUnique]
    wellFormed := by
      have hwellFormed := @h.wellFormed
      grind [ExecTransaction.WellFormed]
    pendingOwner := by grind [@h.pendingOwner]
    pendingCandidate := by grind [@h.pendingCandidate]
    committedCandidate := by grind [@h.committedCandidate]
    ownerRetired := by grind [@h.ownerRetired]
    targetFree := by grind [@h.targetFree] }

/-- A worker reserves a replacement. -/
theorem Authority.addExec {target : PeerIdentity} (hunowned : ∀ pid : Nat, peerOf pid ≠ some target)
    (hcontrol : ∀ (i : ClientId) (c : Client), clients[i]? = some c → c.peer = target →
      c.kind.isControl = true) (hnotRetired : target ∉ retired)
    (htarget : ∀ (id : Nat) (t : ExecTransaction), execs[id]? = some t → t.target ≠ target)
    (hfresh : ∀ (j : ClientId) (c : Client), clients[j]? = some c → c.peer ≠ target)
    (howner : clients[owner]? = some ⟨peer, .worker pid⟩) (hid : execs[id]? = none)
    (hkinds : ∀ (i : ClientId) (c : Client), clients[i]? = some c → c.kind.transaction ≠ some id)
    (hidle : ∀ (i : Nat) (u : ExecTransaction), execs[i]? = some u → u.process = pid →
      u.state.terminal = true) (ht : t = ⟨pid, owner, peer, target, none, .prepared, false, none⟩)
    (hexecs : ∀ j : Nat, execs'[j]? = if id = j then some t else execs[j]?) :
    Authority clients peerOf execs' retired := by
  exact { h with
    candidateKnown := by grind [@h.candidateKnown]
    candidateOf := by grind [@h.candidateOf, ClientKind.transaction]
    retiredOf := by grind [@h.retiredOf, ClientKind.transaction]
    targetClient := by grind [@h.targetClient]
    execOwner := by grind [@h.execOwner, @h.workerOwns]
    targetUnowned := by grind [@h.targetUnowned]
    targetsDistinct := by grind [@h.targetsDistinct]
    execUnique := by
      have hexecUnique := @h.execUnique
      have hownerRetired := @h.ownerRetired
      have hworkerOwns := @h.workerOwns
      have hexecOwner := @h.execOwner
      grind
    wellFormed := by grind [@h.wellFormed, ExecTransaction.WellFormed]
    pendingOwner := by grind [@h.pendingOwner]
    pendingCandidate := by grind [@h.pendingCandidate]
    committedCandidate := by grind [@h.committedCandidate]
    ownerRetired := by grind [@h.ownerRetired]
    targetFree := by grind [@h.targetFree] }

/-- An exec goes on without a change of who it is about. -/
theorem Authority.updateExec {u : ExecTransaction} (ht : execs[id]? = some t)
    (hexecs : ∀ j : Nat, execs'[j]? = if id = j then some u else execs[j]?)
    (hprocess : u.process = t.process) (howner : u.owner = t.owner)
    (hpeer : u.ownerPeer = t.ownerPeer) (htarget : u.target = t.target)
    (hcandidate : u.candidate = t.candidate) (hwellFormed : u.WellFormed)
    (hterminal : u.state.terminal = t.state.terminal)
    (hcommitted : u.state = .committed ↔ t.state = .committed) :
    Authority clients peerOf execs' retired := by
  have haborted : u.state = .aborted ↔ t.state = .aborted := by
    cases hu : u.state <;> cases ht : t.state <;> simp_all [TransactionState.terminal]
  exact { h with
    candidateKnown := by grind [@h.candidateKnown]
    candidateOf := by grind [@h.candidateOf]
    retiredOf := by grind [@h.retiredOf]
    targetClient := by grind [@h.targetClient]
    execOwner := by grind [@h.execOwner]
    targetUnowned := by grind [@h.targetUnowned]
    targetsDistinct := by grind [@h.targetsDistinct]
    execUnique := by grind [@h.execUnique]
    wellFormed := by grind [@h.wellFormed]
    pendingOwner := by grind [@h.pendingOwner]
    pendingCandidate := by grind [@h.pendingCandidate]
    committedCandidate := by grind [@h.committedCandidate]
    ownerRetired := by grind [@h.ownerRetired]
    targetFree := by grind [@h.targetFree] }

theorem Authority.setExecReady (ht : execs[id]? = some t) (hpending : t.state.terminal = false)
    (hattached : t.candidate ≠ none)
    (hexecs : ∀ j : Nat, execs'[j]? =
      if id = j then some { t with state := .ready } else execs[j]?) :
    Authority clients peerOf execs' retired := by
  have hwellFormed := h.wellFormed ht
  have hnot : t.state ≠ .committed := fun heq => by rw [heq] at hpending; cases hpending
  exact h.updateExec ht hexecs rfl rfl rfl rfl rfl
    ⟨fun heq => (by cases heq), fun _ _ => hattached, by simp [hwellFormed.retiringIff, hnot],
      fun hexit => absurd (hwellFormed.noted hexit) hnot⟩
    hpending.symm (by simp [hnot])

theorem Authority.retireOwner
    (howner : clients[owner]? = some ⟨peer, .worker pid⟩) (ht : execs[id]? = some t)
    (hready : t.state = .ready) (htowner : t.owner = owner) (hpid : t.process = pid)
    (hclients : ∀ j : ClientId, clients'[j]? =
      if owner = j then some ⟨peer, .retired pid id⟩ else clients[j]?)
    (hexecs : ∀ j : Nat, execs'[j]? =
      if id = j then some { t with state := .committed, retiring := true } else execs[j]?)
    (hretired : ∀ x : PeerIdentity, x ∈ retired' ↔ x = peer ∨ x ∈ retired) :
    Authority clients' peerOf execs' retired' := by
  exact { h with
    clientsDistinct := by grind [@h.clientsDistinct]
    workerOwns := by grind [@h.workerOwns, @h.clientsDistinct]
    ownerKind := by grind [@h.ownerKind, @h.workerOwns, @h.peersDistinct]
    candidateKnown := by grind [@h.candidateKnown]
    candidateOf := by grind [@h.candidateOf]
    retiredOf := by
      have hpeer := (h.workerOwns howner).1.symm.trans (hpid ▸ h.execOwner ht)
      intro i x pid' j u hi hj
      rw [hclients] at hi
      rw [hexecs] at hj
      split at hi
      · next hi' =>
        cases hi
        rw [if_pos rfl] at hj
        cases hj
        exact ⟨hpid, htowner.trans hi', (Option.some.inj hpeer).symm, rfl⟩
      · split at hj
        · next heq =>
          obtain ⟨-, -, -, hcommitted⟩ := h.retiredOf hi (heq ▸ ht)
          rw [hready] at hcommitted
          cases hcommitted
        · exact h.retiredOf hi hj
    targetClient := by
      have htargetClient := @h.targetClient
      have hworkerOwns := @h.workerOwns
      have htargetUnowned := @h.targetUnowned
      grind
    execOwner := by grind [@h.execOwner]
    targetUnowned := by grind [@h.targetUnowned]
    targetsDistinct := by grind [@h.targetsDistinct]
    execUnique := by grind [@h.execUnique]
    wellFormed := by
      have hwellFormed := @h.wellFormed
      grind [ExecTransaction.WellFormed]
    pendingOwner := by grind [@h.pendingOwner, @h.execUnique]
    pendingCandidate := by grind [@h.pendingCandidate, @h.execUnique]
    committedCandidate := by
      have hcommittedCandidate := @h.committedCandidate
      have hpendingCandidate := @h.pendingCandidate
      grind
    ownerRetired := by grind [@h.ownerRetired, @h.pendingOwner]
    targetFree := by
      have htargetFree := @h.targetFree
      have htargetUnowned := @h.targetUnowned
      have hworkerOwns := @h.workerOwns
      grind }

theorem Authority.abortExec (ht : execs[id]? = some t) (hpending : t.state.terminal = false)
    (hexecs : ∀ j : Nat, execs'[j]? =
      if id = j then some { t with state := .aborted } else execs[j]?)
    (hretired : ∀ x : PeerIdentity, x ∈ retired' ↔
      (t.candidate ≠ none ∧ x = t.target) ∨ x ∈ retired) :
    Authority clients peerOf execs' retired' := by
  exact { h with
    workerOwns := by grind [@h.workerOwns, @h.targetUnowned]
    candidateKnown := by
      have hcandidateKnown := @h.candidateKnown
      have hcandidateOf := @h.candidateOf
      grind
    candidateOf := by grind [@h.candidateOf]
    retiredOf := by grind [@h.retiredOf]
    targetClient := by grind [@h.targetClient]
    execOwner := by grind [@h.execOwner]
    targetUnowned := by grind [@h.targetUnowned]
    targetsDistinct := by grind [@h.targetsDistinct]
    execUnique := by grind [@h.execUnique]
    wellFormed := by
      have hwellFormed := @h.wellFormed
      grind [ExecTransaction.WellFormed]
    pendingOwner := by grind [@h.pendingOwner]
    pendingCandidate := by grind [@h.pendingCandidate]
    committedCandidate := by grind [@h.committedCandidate]
    ownerRetired := by grind [@h.ownerRetired]
    targetFree := by grind [@h.targetFree, @h.targetsDistinct] }

/-- Fewer execs, as long as each candidate is retired or has one that was not aborted. -/
theorem Authority.fewerExecs
    (hexecs : ∀ {j : Nat} {u : ExecTransaction}, execs'[j]? = some u → execs[j]? = some u)
    (hknown : ∀ {i : ClientId} {x : PeerIdentity} {pid id : Nat},
      clients[i]? = some ⟨x, .execCandidate pid id⟩ →
      x ∈ retired ∨ ∃ t : ExecTransaction, execs'[id]? = some t ∧ t.state ≠ .aborted) :
    Authority clients peerOf execs' retired := by
  exact { h with
    candidateKnown := hknown
    candidateOf := fun hi hj => h.candidateOf hi (hexecs hj)
    retiredOf := fun hi hj => h.retiredOf hi (hexecs hj)
    targetClient := fun hj => h.targetClient (hexecs hj)
    execOwner := fun hj => h.execOwner (hexecs hj)
    targetUnowned := fun hj => h.targetUnowned (hexecs hj)
    targetsDistinct := fun hj hj' => h.targetsDistinct (hexecs hj) (hexecs hj')
    execUnique := fun hj hj' => h.execUnique (hexecs hj) (hexecs hj')
    wellFormed := fun hj => h.wellFormed (hexecs hj)
    pendingOwner := fun hj => h.pendingOwner (hexecs hj)
    pendingCandidate := fun hj => h.pendingCandidate (hexecs hj)
    committedCandidate := fun hj => h.committedCandidate (hexecs hj)
    ownerRetired := fun hj => h.ownerRetired (hexecs hj)
    targetFree := fun hj => h.targetFree (hexecs hj) }

theorem Authority.eraseExec (ht : execs[id]? = some t) (haborted : t.state = .aborted)
    (hexecs : ∀ j : Nat, execs'[j]? = if id = j then none else execs[j]?) :
    Authority clients peerOf execs' retired :=
  h.fewerExecs (by grind) (by grind [@h.candidateKnown])

theorem Authority.removeClient {client : ClientId}
    (hidle : ∀ (id : Nat) (t : ExecTransaction), execs[id]? = some t →
      t.state.terminal = false → t.owner ≠ client ∧ t.candidate ≠ some client)
    (hclients : ∀ j : ClientId, clients'[j]? = if client = j then none else clients[j]?) :
    Authority clients' peerOf execs retired := by
  exact { h with
    clientsDistinct := by grind [@h.clientsDistinct]
    workerOwns := by grind [@h.workerOwns]
    ownerKind := by grind [@h.ownerKind]
    candidateKnown := by grind [@h.candidateKnown]
    candidateOf := by grind [@h.candidateOf]
    retiredOf := by grind [@h.retiredOf]
    targetClient := by grind [@h.targetClient]
    pendingOwner := by grind [@h.pendingOwner]
    pendingCandidate := by grind [@h.pendingCandidate]
    committedCandidate := by grind [@h.committedCandidate] }

theorem Authority.noteExit {exit : Int}
    (ht : execs[id]? = some t) (hcommitted : t.state = .committed)
    (hexecs : ∀ j : Nat, execs'[j]? =
      if id = j then some { t with candidateExit := some exit } else execs[j]?) :
    Authority clients peerOf execs' retired := by
  obtain ⟨hvacant, hattached, hretiring, -⟩ := h.wellFormed ht
  exact h.updateExec ht hexecs rfl rfl rfl rfl rfl
    ⟨hvacant, hattached, hretiring, fun _ => hcommitted⟩ rfl Iff.rfl

theorem Authority.promote (ht : execs[id]? = some t) (hcommitted : t.state = .committed)
    (hclients : ∀ j : ClientId, clients'[j]? =
      if t.candidate = some j then clients[j]?.map fun c => { c with kind := .worker t.process }
      else clients[j]?)
    (hpeers : ∀ q : Nat, peerOf' q = if t.process = q then some t.target else peerOf q)
    (hexecs : ∀ (j : Nat) (u : ExecTransaction), execs'[j]? = some u ↔
      execs[j]? = some u ∧ u.process ≠ t.process) :
    Authority clients' peerOf' execs' retired := by
  exact { h with
    peersDistinct := by grind [@h.peersDistinct, @h.targetUnowned]
    clientsDistinct := by
      have hclientsDistinct := @h.clientsDistinct
      have hcommittedCandidate := @h.committedCandidate
      grind
    workerOwns := by
      have hworkerOwns := @h.workerOwns
      have hexecOwner := @h.execOwner
      have hownerRetired := @h.ownerRetired
      have htargetFree := @h.targetFree
      have hcommittedCandidate := @h.committedCandidate
      grind
    ownerKind := by
      have hownerKind := @h.ownerKind
      have htargetClient := @h.targetClient
      have htargetUnowned := @h.targetUnowned
      have hexecOwner := @h.execOwner
      have hpeersDistinct := @h.peersDistinct
      have hcommittedCandidate := @h.committedCandidate
      grind
    candidateKnown := by grind [@h.candidateKnown, @h.execUnique, @h.candidateOf]
    candidateOf := by grind [@h.candidateOf]
    retiredOf := by grind [@h.retiredOf]
    targetClient := by
      have htargetClient := @h.targetClient
      have htargetsDistinct := @h.targetsDistinct
      have hcommittedCandidate := @h.committedCandidate
      grind
    execOwner := by grind [@h.execOwner]
    targetUnowned := by grind [@h.targetUnowned, @h.targetsDistinct]
    targetsDistinct := by grind [@h.targetsDistinct]
    execUnique := by grind [@h.execUnique]
    wellFormed := by grind [@h.wellFormed, ExecTransaction.WellFormed]
    pendingOwner := by
      have hpendingOwner := @h.pendingOwner
      have hcommittedCandidate := @h.committedCandidate
      grind
    pendingCandidate := by
      have hpendingCandidate := @h.pendingCandidate
      have htargetsDistinct := @h.targetsDistinct
      have hcommittedCandidate := @h.committedCandidate
      grind
    committedCandidate := by
      have hcommittedCandidate := @h.committedCandidate
      have htargetsDistinct := @h.targetsDistinct
      grind
    ownerRetired := by grind [@h.ownerRetired]
    targetFree := by grind [@h.targetFree] }

theorem Authority.removeProcess (hpid : peerOf pid = some peer)
    (hfresh : ∀ (j : ClientId) (c : Client), clients[j]? = some c → c.peer ≠ peer)
    (haborted : ∀ (j : Nat) (u : ExecTransaction), execs[j]? = some u → u.process = pid →
      u.state = .aborted) (hpeers : ∀ q : Nat, peerOf' q = if pid = q then none else peerOf q)
    (hexecs : ∀ (j : Nat) (u : ExecTransaction), execs'[j]? = some u ↔
      execs[j]? = some u ∧ u.process ≠ pid) : Authority clients peerOf' execs' retired := by
  have hfewer := h.fewerExecs (fun hj => ((hexecs _ _).mp hj).1)
    (by grind [@h.candidateKnown, @h.candidateOf])
  exact { hfewer with
    peersDistinct := by grind [@h.peersDistinct]
    workerOwns := by grind [@h.workerOwns]
    ownerKind := by grind [@h.ownerKind]
    execOwner := by grind [@h.execOwner]
    targetUnowned := by grind [@h.targetUnowned] }

theorem Authority.forgetRetired
    (hfresh : ∀ (j : ClientId) (c : Client), clients[j]? = some c → c.peer ≠ peer)
    (hunowned : ∀ pid : Nat, peerOf pid ≠ some peer)
    (hretired : ∀ x : PeerIdentity, x ∈ retired' ↔ x ≠ peer ∧ x ∈ retired) :
    Authority clients peerOf execs retired' := by
  exact { h with
    workerOwns := by grind [@h.workerOwns]
    candidateKnown := by grind [@h.candidateKnown]
    ownerRetired := by
      have hownerRetired := @h.ownerRetired
      have hexecOwner := @h.execOwner
      grind
    targetFree := by grind [@h.targetFree] }

end

end Components

/-! ## Effects of a call -/

/-- The invariant of the authority over processes. -/
abbrev StateManager.authority (m : StateManager) : Prop :=
  Authority m.clients m.peerOf m.execTransactions m.retiredPeers

theorem Authority.initial {m : StateManager} (h : Initial m) : m.authority := by
  cases h <;> constructor <;> intros <;>
    simp_all [StateManager.peerOf, column, StateManager.withLimits,
      StateManager.forProcessTree, StateManager.new]

variable {m m' : StateManager} {e : Event}

theorem Authority.change (h : m.authority) (hn : Numbering m) (hp : m.phases)
    (hchange : Change e m m') : m'.authority := by
  cases hchange with
  | shutdown | setValue | forkReady | collect => exact h
  | connectControl hkind hunknown htarget hhelper hroom =>
    exact h.addClient hkind hunknown.unowned hunknown.control hunknown.notRetired htarget
      hhelper hn.client_fresh (fun _ _ ht => hn.candidate_fresh ht)
      (get_insert _ _ · _)
  | connectRoot hunknown htarget hfresh hroom hprocesses hpids =>
    exact h.addWorker hunknown.unowned hunknown.notRetired htarget hfresh
      (column_eq_none.mpr hn.process_fresh) hn.client_fresh
      (fun _ _ ht => hn.candidate_fresh ht) (get_insert _ _ · _)
      (column_insert _ _ _ · _)
  | @connectFork _ peer id t snapshot hunknown htarget hfresh hroom ht hprepared hsnapshot =>
    have hchild : m.stateOf t.ticket.child.pid = none := by
      have hphase := hp.phase ht
      simp only [Transaction.Phase, hprepared] at hphase
      exact hphase.2
    exact h.addWorker hunknown.unowned hunknown.notRetired htarget hfresh
      (column_eq_none.mpr (column_eq_none.mp hchild)) hn.client_fresh
      (fun _ _ ht => hn.candidate_fresh ht) (get_insert _ _ · _)
      (column_insert _ _ _ · _)
  | connectExec hunknown hfresh hroom ht htarget hprepared =>
    exact h.attachCandidate hunknown.unowned hfresh ht htarget hprepared hn.client_fresh
      (fun _ _ hu => hn.candidate_fresh hu) (get_insert _ _ · _) (get_modify_of _ ht)
  | park => rw [StateManager.authority, peerOf_setPrewarm]; exact h
  | bindLaunch => rw [StateManager.authority, peerOf_bindLaunch]; exact h
  | addModule => rw [StateManager.authority, peerOf_addModule]; exact h
  | addState => rw [StateManager.authority, peerOf_addState]; exact h
  | reserveFork => rw [StateManager.authority, peerOf_reserveFork]; exact h
  | commitFork => rw [StateManager.authority, peerOf_activateChild]; exact h
  | abortFork hevent ht hpending =>
    rw [StateManager.authority, peerOf_abortTransaction, abortTransaction_of_pending ht hpending]
    exact h
  | addExec howner hactive hkey hidle hunknown htarget hfresh hkeys hroom hretirement =>
    rw [StateManager.authority, peerOf_addExec]
    exact h.addExec hunknown.unowned hunknown.control hunknown.notRetired htarget hfresh
      howner.connected hn.exec_fresh (fun _ _ hc => hn.kind_fresh hc) hidle rfl
      (get_insert _ _ · _)
  | execReady hclient ht hcandidate hpending =>
    exact h.setExecReady ht hpending (by rw [hcandidate]; exact Option.some_ne_none _)
      (get_modify_of _ ht)
  | commitExec hevent howner ht hprocess hclient hready =>
    exact h.retireOwner howner.connected ht hready hclient hprocess
      (get_modify_of _ howner.connected) (get_modify_of _ ht)
      (fun _ => Finset.mem_insert)
  | @abortExec id t ht hpending =>
    rw [abortExecTransaction_of_pending ht hpending]
    refine h.abortExec ht hpending (get_modify_of _ ht) fun x => ?_
    cases t.candidate <;> simp
  | forgetFork => rw [StateManager.authority, peerOf_forgetTransaction]; exact h
  | forgetExec hevent howner ht hprocess haborted =>
    rw [StateManager.authority, peerOf_forgetExec]
    exact h.eraseExec ht haborted (get_erase _ _ ·)
  | release => rw [StateManager.authority, peerOf_releaseReservations]; exact h
  | dropClient hends hclient hreserved hexecs hforks =>
    exact h.removeClient hexecs (get_erase _ _ ·)
  | noteExit hevent ht hretiring =>
    exact h.noteExit ht ((h.wellFormed ht).retiringIff.mp hretiring) (get_modify_of _ ht)
  | @promote id t status hevent ht hretiring =>
    refine h.promote ht ((h.wellFormed ht).retiringIff.mp hretiring) (fun j => ?_) (fun q => ?_)
      fun j u => ?_
    · unfold StateManager.promote
      cases t.candidate with
      | none => simp
      | some c => simp [get_modify, Option.some.injEq]
    · rw [peerOf_promote]
      split
      · next hq => rw [← hq, h.execOwner ht]; rfl
      · rfl
    · exact get_filter_eq_some.trans (and_congr_right fun _ => bne_iff_ne)
  | endProcess hevent hp' hfresh hforks hexecs hrecorded =>
    refine h.removeProcess (column_of_get _ hp') hfresh hexecs
      (peerOf_endProcess _ _ · _ _) fun j u => ?_
    exact get_filter_eq_some.trans (and_congr_right fun _ => bne_iff_ne)
  | forgetRetired hevent hfresh hunowned =>
    exact h.forgetRetired hfresh hunowned fun _ => Finset.mem_erase

end Kinakaze.Manager
