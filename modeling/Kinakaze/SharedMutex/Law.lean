import Kinakaze.SharedMutex.Calls

/-!
# The mutex keeps its promise

The words beside the kernel mutex are written only by its owner, so what they
say is a fact about the owner and the line it is at: `OwnerAt`.  `Sim` relates
the guard to the whole state, and every step of a thread, every failure of a
wait and every death keeps it.

* `robust_mutex_not_as_stated`: where the statement asks for more.
-/

namespace Kinakaze.SharedMutex

open Library

/-- Lines that only the owner of the kernel mutex is at. -/
def Pc.inside : Pc → Bool
  | .countLoad | .countStore _ | .enteredOwner _ _ _ | .enteredTid _ _ _ | .refuse | .lost _
  | .storeOwner _ | .storeCount _ | .storeUsers _ | .storeTid _ | .insert _ | .unlockCount
  | .unlockLower _ | .unlockOwner | .unlockStore _ | .clearCount | .clearUsers | .clearTid
  | .release | .consistentOwner | .consistentStore => true
  | _ => false

/-- Lines of `acquire`. -/
def Pc.acquiring : Pc → Bool
  | .acquireKind _ | .acquireOwner _ _ | .acquireHeld _ _ | .countLoad | .countStore _ | .waitSelf
  | .wait _ _ | .enteredOwner _ _ _ | .enteredTid _ _ _ | .refuse | .lost _ | .storeOwner _
  | .storeCount _ | .storeUsers _ | .storeTid _ | .insert _ => true
  | _ => false

/-- Lines before the first look at the owner word. -/
def Pc.starting : Pc → Bool
  | .acquireKind _ | .acquireOwner _ _ => true
  | _ => false

/-- The kind the acquire read. -/
def Pc.kind? : Pc → Option Kind
  | .acquireOwner _ kind | .acquireHeld _ kind | .wait _ kind | .enteredOwner _ kind _
  | .enteredTid _ kind _ => some kind
  | _ => none

section Owner

variable (g : Guard) (s : State) (t : Thread)

/-- The kernel mutex is owned, and nobody holds. -/
def Free : Prop := s.held t = false ∧ g.holder = none

/-- The words of a mutex nobody holds, when the kernel reports `abandoned`. -/
def Settled (abandoned : Bool) : Prop :=
  g.phase = .destroyed ∨ (s.ownerWord = notRecoverable ∧ g.phase = .notRecoverable) ∨
    (s.ownerWord ≠ notRecoverable ∧
      g.phase = if abandoned = true ∨ s.tidWord ≠ 0 then .ownerDead else .good)

/-- What the acquire is about to return. -/
def Entering (abandoned : Bool) : Prop :=
  g.phase = .destroyed ∨ g.phase = if abandoned then .ownerDead else .good

/-- What the acquire wrote to the owner word. -/
def Marked (abandoned : Bool) : Prop :=
  s.ownerWord = if abandoned then inconsistent else t.id

def Holding : Prop :=
  s.held t = true ∧ 0 < s.countWord ∧ g.holder = some (t, s.countWord) ∧
    (g.phase = .destroyed ∨ (g.phase = .inconsistent ∧ s.ownerWord = inconsistent) ∨
      (g.phase = .good ∧ s.ownerWord = t.id))

/-- The last unlock has written the owner word. -/
def Leaving : Prop :=
  s.held t = true ∧ g.holder = some (t, 1) ∧
    (g.phase = .destroyed ∨ (g.phase = .good ∧ s.ownerWord = 0) ∨
      (g.phase = .notRecoverable ∧ s.ownerWord = notRecoverable))

/-- What holds when the owner of the kernel mutex is at a line. -/
def OwnerAt : Pc → Prop
  | .enteredOwner _ _ abandoned => Free g s t ∧ Settled g s abandoned
  | .enteredTid _ _ abandoned =>
    Free g s t ∧ Settled g s abandoned ∧ s.ownerWord ≠ notRecoverable
  | .refuse => Free g s t ∧
      (g.phase = .destroyed ∨ (g.phase = .notRecoverable ∧ s.ownerWord = notRecoverable))
  | .lost _ => Free g s t ∧ g.phase = .destroyed
  | .storeOwner abandoned =>
    Free g s t ∧ Entering g abandoned ∧ s.ownerWord ≠ notRecoverable
  | .storeCount abandoned => Free g s t ∧ Entering g abandoned ∧ Marked s t abandoned
  | .storeUsers abandoned | .storeTid abandoned | .insert abandoned =>
    Free g s t ∧ Entering g abandoned ∧ Marked s t abandoned ∧ s.countWord = 1
  | .countStore depth => Holding g s t ∧ s.countWord = depth
  | .unlockLower depth => Holding g s t ∧ s.countWord = depth ∧ 1 < depth
  | .unlockOwner => Holding g s t ∧ s.countWord = 1
  | .unlockStore value => Holding g s t ∧ s.countWord = 1 ∧
      value = if s.ownerWord = inconsistent then notRecoverable else 0
  | .consistentStore => Holding g s t ∧ s.ownerWord = inconsistent
  | .clearCount | .clearUsers | .clearTid => Leaving g s t
  | .release => Leaving g s t ∧ s.tidWord = 0
  | .wait _ _ | .forget => False
  | _ => Holding g s t

end Owner

/-- The guard says of the mutex what its words and the kernel say. -/
structure Sim (g : Guard) (s : State) : Prop where
  outside : ∀ t, s.owner ≠ some t → (s.pc t).inside = false ∧ (s.held t = true → s.pc t = .forget)
  nobody : s.owner = none → g.holder = none ∧ Settled g s s.abandoned
  owner : ∀ t, s.owner = some t → s.abandoned = false ∧ OwnerAt g s t (s.pc t)
  kinds : g.phase ≠ .destroyed →
    s.kind.robust = true ∧ ∀ t kind, (s.pc t).kind? = some kind → kind.robust = true
  calls : ∀ t, (s.pc t).acquiring = true → (g.calls t).isSome = true
  late : ∀ t, g.calls t = some true →
    g.phase = .destroyed ∨ (g.phase = .notRecoverable ∧ (s.pc t).starting = true)

variable {g g' : Guard} {s s' : State} {t u : Thread}

theorem inconsistent_ne : inconsistent ≠ notRecoverable := by decide

theorem notRecoverable_ne_zero : notRecoverable ≠ 0 := by decide

variable {pc : Pc}

theorem OwnerAt.congr (h : OwnerAt g s t pc) (hholder : g'.holder = g.holder)
    (hphase : g'.phase = g.phase) (hheld : s'.held t = s.held t)
    (howner : s'.ownerWord = s.ownerWord) (hcount : s'.countWord = s.countWord)
    (htid : s'.tidWord = s.tidWord) : OwnerAt g' s' t pc := by
  cases pc <;>
    simpa only [OwnerAt, Free, Settled, Entering, Marked, Holding, Leaving, hholder, hphase, hheld,
      howner, hcount, htid] using h

theorem OwnerAt.destroyed (h : OwnerAt g s t pc) :
    OwnerAt { g with phase := .destroyed } s t pc := by
  cases pc <;> simp only [OwnerAt, Free, Settled, Entering, Marked, Holding, Leaving, true_or,
    and_true] at h ⊢ <;> tauto

theorem OwnerAt.word (h : OwnerAt g s t pc) (hphase : g.phase ≠ .destroyed) :
    s.ownerWord = notRecoverable ↔ g.phase = .notRecoverable := by
  have hid := t.valid.2.2
  have hne := inconsistent_ne
  have hzero := notRecoverable_ne_zero
  cases pc <;> simp only [OwnerAt, Free, Settled, Entering, Marked, Holding, Leaving] at h <;>
    grind

theorem Sim.word (h : Sim g s) (hphase : g.phase ≠ .destroyed) :
    s.ownerWord = notRecoverable ↔ g.phase = .notRecoverable := by
  cases howner : s.owner with
  | some t => exact (h.owner t howner).2.word hphase
  | none =>
    have hsettled := (h.nobody howner).2
    unfold Settled at hsettled
    grind

/-! ### Kinds of step -/

/-- Between the two states only `t` moved, and the guard only went on. -/
structure Aside (t : Thread) (g g' : Guard) (s s' : State) : Prop where
  kind : s'.kind = s.kind
  pc : ∀ u, u ≠ t → s'.pc u = s.pc u
  held : ∀ u, u ≠ t → s'.held u = s.held u
  calls : ∀ u, u ≠ t → g'.calls u = g.calls u
  destroyed : g'.phase = .destroyed ↔ g.phase = .destroyed
  sticky : g.phase = .notRecoverable → g'.phase = .notRecoverable

/-- What is left to show when only `t` moved. -/
theorem Sim.aside (h : Sim g s) (ha : Aside t g g' s s')
    (hfreed : ∀ u, u ≠ t → s.owner = some u → s'.owner = some u) (houtside : s'.owner ≠ some t →
      (s'.pc t).inside = false ∧ (s'.held t = true → s'.pc t = .forget))
    (hnobody : s'.owner = none → g'.holder = none ∧ Settled g' s' s'.abandoned)
    (howner : ∀ u, s'.owner = some u → s'.abandoned = false ∧ OwnerAt g' s' u (s'.pc u))
    (hkind : g.phase ≠ .destroyed → ∀ kind, (s'.pc t).kind? = some kind → kind.robust = true)
    (hcall : (s'.pc t).acquiring = true → (g'.calls t).isSome = true)
    (hlate : g'.calls t = some true →
      g'.phase = .destroyed ∨ (g'.phase = .notRecoverable ∧ (s'.pc t).starting = true)) :
    Sim g' s' := by
  refine ⟨fun u hu => ?_, hnobody, howner, fun hphase => ?_, fun u hu => ?_, fun u hu => ?_⟩
  · by_cases hut : u = t
    · subst hut
      exact houtside hu
    · rw [ha.pc u hut, ha.held u hut]
      exact h.outside u fun heq => hu (hfreed u hut heq)
  · have hphase' : g.phase ≠ .destroyed := fun heq => hphase (ha.destroyed.mpr heq)
    rw [ha.kind]
    refine ⟨(h.kinds hphase').1, fun u kind hk => ?_⟩
    by_cases hut : u = t
    · subst hut
      exact hkind hphase' kind hk
    · rw [ha.pc u hut] at hk
      exact (h.kinds hphase').2 u kind hk
  · by_cases hut : u = t
    · subst hut
      exact hcall hu
    · rw [ha.pc u hut] at hu
      rw [ha.calls u hut]
      exact h.calls u hu
  · by_cases hut : u = t
    · subst hut
      exact hlate hu
    · rw [ha.calls u hut] at hu
      rw [ha.pc u hut, ha.destroyed]
      exact (h.late u hu).imp_right fun hl => ⟨ha.sticky hl.1, hl.2⟩

theorem goto_pc (s : State) (t : Thread) (pc : Pc) : (s.goto t pc).pc t = pc :=
  Function.update_self ..

theorem goto_pc_of_ne (s : State) {t u : Thread} (pc : Pc) (hu : u ≠ t) :
    (s.goto t pc).pc u = s.pc u :=
  Function.update_of_ne hu _ _

/-- A step that only moves `t`, and may begin or end its acquire. -/
theorem Sim.quiet (h : Sim g s) (hholder : g'.holder = g.holder) (hphase : g'.phase = g.phase)
    (hcalls : ∀ u, u ≠ t → g'.calls u = g.calls u) (howner : s.owner = some t → OwnerAt g s t pc)
    (houtside : s.owner ≠ some t → pc.inside = false ∧ (s.held t = true → pc = .forget))
    (hkind : g.phase ≠ .destroyed → ∀ kind, pc.kind? = some kind → kind.robust = true)
    (hcall : pc.acquiring = true → (g'.calls t).isSome = true) (hlate : g'.calls t = some true →
      g.phase = .destroyed ∨ (g.phase = .notRecoverable ∧ pc.starting = true)) :
    Sim g' (s.goto t pc) := by
  have ha : Aside t g g' s (s.goto t pc) :=
    ⟨rfl, fun u hu => goto_pc_of_ne s pc hu, fun _ _ => rfl, hcalls, by rw [hphase],
      by rw [hphase]; exact id⟩
  refine h.aside ha (fun _ _ => id) ?_ (fun hnone => ?_) (fun u hu => ?_) ?_ ?_ ?_
  · rw [goto_pc]
    exact houtside
  · have hold := h.nobody hnone
    unfold Settled at hold ⊢
    rw [hholder, hphase]
    exact hold
  · refine ⟨(h.owner u hu).1, OwnerAt.congr ?_ hholder hphase rfl rfl rfl rfl⟩
    by_cases hut : u = t
    · subst hut
      rw [goto_pc]
      exact howner hu
    · rw [goto_pc_of_ne s pc hut]
      exact (h.owner u hu).2
  · rw [goto_pc]
    exact hkind
  · rw [goto_pc]
    exact hcall
  · rw [goto_pc, hphase]
    exact hlate

theorem Sim.owning (h : Sim g s) (ha : Aside t g g' s s') (howner : s.owner = some t)
    (howner' : s'.owner = some t) (habandoned : s'.abandoned = false)
    (hat : OwnerAt g' s' t (s'.pc t)) (hkind : (s'.pc t).kind? = none)
    (hcall : (s'.pc t).acquiring = true → (g'.calls t).isSome = true)
    (hlate : g'.calls t = some true → g'.phase = .destroyed) : Sim g' s' := by
  refine h.aside ha (fun u hu heq => ?_) (fun hne => absurd howner' hne) (fun hnone => ?_)
    (fun u hu => ?_) (fun _ kind hk => ?_) hcall fun hl => .inl (hlate hl)
  · exact absurd (Option.some.inj (heq.symm.trans howner)) hu
  · rw [howner'] at hnone
    cases hnone
  · rw [howner'] at hu
    cases hu
    exact ⟨habandoned, hat⟩
  · rw [hkind] at hk
    cases hk

/-- A step after which the kernel mutex is free. -/
theorem Sim.freeing (h : Sim g s) (ha : Aside t g g' s s') (howner : s.owner = some t)
    (howner' : s'.owner = none) (hnobody : g'.holder = none ∧ Settled g' s' s'.abandoned)
    (hinside : (s'.pc t).inside = false ∧ (s'.held t = true → s'.pc t = .forget))
    (hkind : (s'.pc t).kind? = none)
    (hcall : (s'.pc t).acquiring = true → (g'.calls t).isSome = true)
    (hlate : g'.calls t = some true → g'.phase = .destroyed) : Sim g' s' := by
  refine h.aside ha (fun u hu heq => ?_) (fun _ => hinside) (fun _ => hnobody)
    (fun u hu => ?_) (fun _ kind hk => ?_) hcall fun hl => .inl (hlate hl)
  · exact absurd (Option.some.inj (heq.symm.trans howner)) hu
  · rw [howner'] at hu
    cases hu
  · rw [hkind] at hk
    cases hk

/-! ### One step -/

/-- The guard accepts what is seen, and still says what the state says. -/
def Kept (g : Guard) (result : State × Option Event) : Prop :=
  ∃ g', (match result.2 with
    | none => some g
    | some event => g.accept .asBuilt event) = some g' ∧ Sim g' result.1

/-- A line outside `acquire`, reached without an event. -/
theorem Sim.keptQuiet (h : Sim g s) (howner : s.owner = some t → OwnerAt g s t pc)
    (houtside : s.owner ≠ some t → pc.inside = false ∧ (s.held t = true → pc = .forget))
    (hkind : g.phase ≠ .destroyed → ∀ kind, pc.kind? = some kind → kind.robust = true)
    (hcall : pc.acquiring = true → (s.pc t).acquiring = true)
    (hlate : (s.pc t).starting = true → pc.starting = true ∨ g.phase ≠ .notRecoverable) :
    Kept g (s.goto t pc, none) := by
  refine ⟨g, rfl, h.quiet rfl rfl (fun _ _ => rfl) howner houtside hkind
    (fun hacq => h.calls t (hcall hacq)) fun hl => (h.late t hl).imp_right fun hstart => ?_⟩
  exact ⟨hstart.1, (hlate hstart.2).resolve_right fun hne => hne hstart.1⟩

theorem Sim.keptFinish (h : Sim g s) {code : Code} (howner : s.owner = some t → Holding g s t)
    (houtside : s.owner ≠ some t → s.held t = false)
    (haccept : g.accept .asBuilt (.finished t code) = some (g.done t)) :
    Kept g (s.finish t code) := by
  refine ⟨g.done t, haccept, h.quiet rfl rfl (fun _ hu => g.done_calls_of_ne hu) howner
    (fun hne => ⟨rfl, fun hheld => ?_⟩) (fun _ _ hk => ?_) (fun hacq => ?_) fun hl => ?_⟩
  · rw [houtside hne] at hheld
    cases hheld
  · cases hk
  · cases hacq
  · rw [Guard.done_calls] at hl
    cases hl

theorem Sim.accept_failed (h : Sim g s) (hstart : (s.pc t).starting = false) (errno : Nat) :
    g.accept .asBuilt (.finished t (.failed errno)) = some (g.done t) := by
  refine if_pos ?_
  by_cases hl : g.calls t = some true
  · rcases h.late t hl with hphase | ⟨-, hs⟩
    · exact .inr hphase
    · rw [hs] at hstart
      cases hstart
  · exact .inl hl

theorem Sim.owner_of_held (h : Sim g s) (hheld : s.held t = true) (hpc : s.pc t ≠ .forget) :
    s.owner = some t := by
  by_contra hne
  exact hpc ((h.outside t hne).2 hheld)

theorem Sim.unheld (h : Sim g s) (hpc : s.pc t ≠ .forget) (hne : s.owner ≠ some t) :
    s.held t = false := by
  by_contra hheld
  exact hpc ((h.outside t hne).2 (by simpa using hheld))

theorem Sim.atInside (h : Sim g s) (hinside : (s.pc t).inside = true) :
    s.owner = some t ∧ s.abandoned = false ∧ OwnerAt g s t (s.pc t) := by
  have howner : s.owner = some t := by
    by_contra hne
    rw [(h.outside t hne).1] at hinside
    cases hinside
  exact ⟨howner, h.owner t howner⟩

theorem Sim.prompt (h : Sim g s) (hphase : g.phase ≠ .destroyed)
    (hacquiring : (s.pc t).acquiring = true) (hstart : (s.pc t).starting = false) :
    g.calls t = some false := by
  have hsome := h.calls t hacquiring
  cases hc : g.calls t with
  | none => simp [hc] at hsome
  | some late =>
    cases late with
    | false => rfl
    | true =>
      obtain ⟨-, hs⟩ := (h.late t hc).resolve_left hphase
      rw [hs] at hstart
      cases hstart

variable {s₁ : State}

theorem Aside.goto (hkind : s₁.kind = s.kind) (hpc : s₁.pc = s.pc)
    (hheld : ∀ u, u ≠ t → s₁.held u = s.held u) (hcalls : ∀ u, u ≠ t → g'.calls u = g.calls u)
    (hdestroyed : g'.phase = .destroyed ↔ g.phase = .destroyed)
    (hsticky : g.phase = .notRecoverable → g'.phase = .notRecoverable) :
    Aside t g g' s (s₁.goto t pc) :=
  ⟨hkind, fun u hu => (goto_pc_of_ne s₁ pc hu).trans (congrFun hpc u), hheld, hcalls, hdestroyed,
    hsticky⟩

/-- The owner writes a word, and nothing is seen of it. -/
theorem Sim.keptWrite (h : Sim g s) (hinside : (s.pc t).inside = true)
    (hkernel : s₁.owner = s.owner ∧ s₁.abandoned = s.abandoned) (hkind : s₁.kind = s.kind)
    (hpc : s₁.pc = s.pc) (hheld : s₁.held = s.held) (hat : OwnerAt g s₁ t pc)
    (hplain : pc.kind? = none) (hcall : pc.acquiring = true → (s.pc t).acquiring = true)
    (hlate : (s.pc t).starting = false) : Kept g (s₁.goto t pc, none) := by
  obtain ⟨howner, habandoned, -⟩ := h.atInside hinside
  refine ⟨g, rfl, h.owning (.goto hkind hpc (fun u _ => congrFun hheld u) (fun _ _ => rfl) Iff.rfl
    id) howner (hkernel.1.trans howner) (hkernel.2.trans habandoned) ?_ ?_ ?_ fun hl => ?_⟩
  · rw [goto_pc]
    exact hat.congr rfl rfl rfl rfl rfl rfl
  · rw [goto_pc]
    exact hplain
  · rw [goto_pc]
    exact fun hacq => h.calls t (hcall hacq)
  · rcases h.late t hl with hphase | ⟨-, hs⟩
    · exact hphase
    · rw [hs] at hlate
      cases hlate

/-- The owner writes, and something is seen of it. -/
theorem Sim.keptEvent (h : Sim g s) (g' : Guard) {event : Event} (hinside : (s.pc t).inside = true)
    (hkernel : s₁.owner = s.owner ∧ s₁.abandoned = s.abandoned) (hkind : s₁.kind = s.kind)
    (hpc : s₁.pc = s.pc) (hheld : ∀ u, u ≠ t → s₁.held u = s.held u)
    (haccept : g.accept .asBuilt event = some g') (hcalls : ∀ u, u ≠ t → g'.calls u = g.calls u)
    (hdestroyed : g'.phase = .destroyed ↔ g.phase = .destroyed)
    (hsticky : g.phase = .notRecoverable → g'.phase = .notRecoverable) (hat : OwnerAt g' s₁ t pc)
    (hplain : pc.kind? = none) (hacquiring : pc.acquiring = false)
    (hlate : g'.calls t = some true → g'.phase = .destroyed) :
    Kept g (s₁.goto t pc, some event) := by
  obtain ⟨howner, habandoned, -⟩ := h.atInside hinside
  refine ⟨g', haccept, h.owning (.goto hkind hpc hheld hcalls hdestroyed hsticky) howner
    (hkernel.1.trans howner) (hkernel.2.trans habandoned) ?_ ?_ ?_ hlate⟩
  · rw [goto_pc]
    exact hat.congr rfl rfl rfl rfl rfl rfl
  · rw [goto_pc]
    exact hplain
  · rw [goto_pc, hacquiring]
    exact nofun

theorem releaseMutex_of_owner (howner : s.owner = some t) :
    s.releaseMutex t = { s with owner := none } :=
  if_pos howner

/-- The owner releases the kernel mutex. -/
theorem Sim.keptFree (h : Sim g s) (g' : Guard) (pc : Pc) (event : Option Event)
    (hinside : (s.pc t).inside = true) (haccept : (match event with
      | none => some g
      | some event => g.accept .asBuilt event) = some g')
    (hcalls : ∀ u, u ≠ t → g'.calls u = g.calls u) (hphase : g'.phase = g.phase)
    (hholder : g'.holder = none) (hsettled : Settled g s false)
    (houtside : pc.inside = false ∧ (s.held t = true → pc = .forget))
    (hplain : pc.kind? = none) (hcall : pc.acquiring = true → (g'.calls t).isSome = true)
    (hlate : g'.calls t = some true → g'.phase = .destroyed) :
    Kept g ((s.releaseMutex t).goto t pc, event) := by
  obtain ⟨howner, habandoned, -⟩ := h.atInside hinside
  rw [releaseMutex_of_owner howner]
  refine ⟨g', haccept, h.freeing (.goto rfl rfl (fun _ _ => rfl) hcalls (by rw [hphase])
    (by rw [hphase]; exact id)) howner rfl ⟨hholder, ?_⟩ ?_ ?_ ?_ hlate⟩
  · unfold Settled at hsettled ⊢
    rw [hphase, show (({ s with owner := none } : State).goto t pc).abandoned = false from habandoned]
    exact hsettled
  · rw [goto_pc]
    exact houtside
  · rw [goto_pc]
    exact hplain
  · rw [goto_pc]
    exact hcall

theorem Sim.notLate (h : Sim g s) (hstart : (s.pc t).starting = false)
    (hl : g.calls t = some true) : g.phase = .destroyed := by
  rcases h.late t hl with hphase | ⟨-, hs⟩
  · exact hphase
  · rw [hs] at hstart
    cases hstart

section Acquire

variable {mode : Mode}

variable (h : Sim g s)
include h

theorem Sim.acquireStart (kind : Kind)
    (hpc : s.pc t = .acquireKind mode ∨ s.pc t = .acquireOwner mode kind) :
    Kept g (s.advance t) := by
  have hforget : s.pc t ≠ .forget := by rcases hpc with hpc | hpc <;> simp [hpc]
  have hholding : s.owner = some t → Holding g s t := fun howner => by
    have hat := (h.owner t howner).2
    rcases hpc with hpc | hpc <;> simpa only [hpc, OwnerAt] using hat
  have houtside : s.owner ≠ some t → s.held t = false := h.unheld hforget
  rcases hpc with hpc | hpc
  · simp only [State.advance, hpc]
    refine h.keptQuiet hholding (fun hne => ⟨rfl, fun hheld => ?_⟩) (fun hphase kind hk => ?_)
      (fun _ => by rw [hpc]; rfl) fun _ => .inl rfl
    · rw [houtside hne] at hheld
      cases hheld
    · cases hk
      exact (h.kinds hphase).1
  simp only [State.advance, hpc]
  split
  · next hword =>
    refine h.keptFinish hholding houtside (if_pos ?_)
    by_cases hphase : g.phase = .destroyed
    · exact .inr hphase
    · exact .inl ((h.word hphase).mp hword)
  · next hword =>
    refine h.keptQuiet hholding (fun hne => ⟨rfl, fun hheld => ?_⟩) (fun hphase kind' hk => ?_)
      (fun _ => by rw [hpc]; rfl) fun _ => .inr fun hphase => ?_
    · rw [houtside hne] at hheld
      cases hheld
    · cases hk
      exact (h.kinds hphase).2 t kind (by rw [hpc]; rfl)
    · exact hword ((h.word (by rw [hphase]; simp)).mpr hphase)

theorem Sim.acquireHeld {kind : Kind}
    (hpc : s.pc t = .acquireHeld mode kind) : Kept g (s.advance t) := by
  have hforget : s.pc t ≠ .forget := by simp [hpc]
  have hholding : s.owner = some t → Holding g s t := fun howner => by
    simpa only [hpc, OwnerAt] using (h.owner t howner).2
  have houtside : s.owner ≠ some t → s.held t = false := h.unheld hforget
  have hfailed := h.accept_failed (t := t) (by rw [hpc]; rfl)
  simp only [State.advance, hpc]
  split
  · next hheld =>
    have howner := h.owner_of_held hheld hforget
    have hgo : ∀ pc : Pc, OwnerAt g s t pc → pc.kind? = none →
        Kept g (s.goto t pc, none) := fun pc hat hplain =>
      h.keptQuiet (fun _ => hat) (fun hne => absurd howner hne)
        (fun _ _ hk => by rw [hplain] at hk; cases hk) (fun _ => by rw [hpc]; rfl)
        fun hs => by rw [hpc] at hs; cases hs
    split
    · exact hgo .countLoad (hholding howner) rfl
    split
    · exact h.keptFinish hholding houtside (hfailed ebusy)
    · split
      · exact h.keptFinish hholding houtside (hfailed edeadlk)
      · exact hgo .waitSelf (hholding howner) rfl
  · next hheld =>
    refine h.keptQuiet (fun howner => absurd (hholding howner).1 hheld)
      (fun _ => ⟨rfl, fun hh => absurd hh hheld⟩) (fun hphase kind' hk => ?_)
      (fun _ => by rw [hpc]; rfl) fun hs => by rw [hpc] at hs; cases hs
    cases hk
    exact (h.kinds hphase).2 t kind (by rw [hpc]; rfl)

theorem Sim.countStore {depth : Nat} (hpc : s.pc t = .countStore depth) : Kept g (s.advance t) := by
  obtain ⟨howner, habandoned, hat⟩ := h.atInside (t := t) (by rw [hpc]; rfl)
  rw [hpc] at hat
  obtain ⟨⟨hheld, hpos, hholder, hphase⟩, hdepth⟩ := hat
  simp only [State.advance, hpc]
  refine h.keptEvent { g.done t with holder := some (t, depth + 1) } (by rw [hpc]; rfl)
    ⟨rfl, rfl⟩ rfl rfl (fun _ _ => rfl) ?_ (fun _ hu => g.done_calls_of_ne hu) Iff.rfl id
    ⟨hheld, Nat.succ_pos _, rfl, hphase⟩ rfl rfl fun hl => ?_
  · simp [Guard.accept, hholder, hdepth]
  · rw [show ({ g.done t with holder := some (t, depth + 1) } : Guard).calls t = none from
      g.done_calls t] at hl
    cases hl

theorem Sim.wait {kind : Kind} (hpc : s.pc t = .wait mode kind) : Kept g (s.advance t) := by
  have hne : s.owner ≠ some t := fun howner => by
    have hat := (h.owner t howner).2
    rw [hpc] at hat
    exact hat
  have hunheld := h.unheld (t := t) (by simp [hpc]) hne
  simp only [State.advance, hpc]
  split
  · next hfree =>
    have hnone := hfree.resolve_right hne
    have hnobody := h.nobody hnone
    refine ⟨g, rfl, h.aside (.goto rfl rfl (fun _ _ => rfl) (fun _ _ => rfl) Iff.rfl id)
      (fun u _ hu => ?_) (fun hne' => absurd rfl hne') (fun hnone' => ?_) (fun u hu => ?_)
      (fun hphase kind' hk => ?_) (fun _ => h.calls t (by rw [hpc]; rfl)) fun hl => ?_⟩
    · rw [hnone] at hu
      cases hu
    · cases hnone'
    · cases hu
      rw [goto_pc]
      exact ⟨rfl, ⟨hunheld, hnobody.1⟩, hnobody.2⟩
    · rw [goto_pc] at hk
      cases hk
      exact (h.kinds hphase).2 t kind (by rw [hpc]; rfl)
    · exact .inl (h.notLate (by rw [hpc]; rfl) hl)
  · split
    · exact h.keptFinish (fun howner => absurd howner hne) (fun _ => hunheld)
        (h.accept_failed (by rw [hpc]; rfl) ebusy)
    · exact ⟨g, rfl, h⟩

theorem Sim.countLoad (hpc : s.pc t = .countLoad) : Kept g (s.advance t) := by
  obtain ⟨howner, -, hat⟩ := h.atInside (t := t) (by rw [hpc]; rfl)
  rw [hpc] at hat
  simp only [State.advance, hpc]
  split
  · exact h.keptWrite (by rw [hpc]; rfl) ⟨rfl, rfl⟩ rfl rfl rfl ⟨hat, rfl⟩ rfl
      (fun _ => by rw [hpc]; rfl) (by rw [hpc]; rfl)
  · exact h.keptFinish (fun _ => hat) (fun hne => absurd howner hne)
      (h.accept_failed (by rw [hpc]; rfl) eagain)

variable {abandoned : Bool}

theorem Sim.entered {kind : Kind} (hpc : s.pc t = .enteredOwner mode kind abandoned ∨
      s.pc t = .enteredTid mode kind abandoned) : Kept g (s.advance t) := by
  have hinside : (s.pc t).inside = true := by rcases hpc with hpc | hpc <;> rw [hpc] <;> rfl
  have hacquiring : (s.pc t).acquiring = true := by
    rcases hpc with hpc | hpc <;> rw [hpc] <;> rfl
  have hstarting : (s.pc t).starting = false := by
    rcases hpc with hpc | hpc <;> rw [hpc] <;> rfl
  obtain ⟨howner, -, hat⟩ := h.atInside hinside
  have hgo : ∀ pc : Pc, OwnerAt g s t pc → (∀ k, pc.kind? = some k → k = kind) →
      Kept g (s.goto t pc, none) := fun pc hat hk =>
    h.keptQuiet (fun _ => hat) (fun hne => absurd howner hne) (fun hphase k hkind => by
        rw [hk k hkind]
        exact (h.kinds hphase).2 t kind (by rcases hpc with hpc | hpc <;> rw [hpc] <;> rfl))
      (fun _ => hacquiring) fun hs => by rw [hs] at hstarting; cases hstarting
  rcases hpc with hpc | hpc <;> rw [hpc] at hat <;> simp only [State.advance, hpc]
  · obtain ⟨hfree, hsettled⟩ := hat
    split
    · next hword =>
      refine hgo .refuse ⟨hfree, ?_⟩ nofun
      rcases hsettled with hgone | ⟨-, hphase⟩ | ⟨hne, -⟩
      · exact .inl hgone
      · exact .inr ⟨hphase, hword⟩
      · exact absurd hword hne
    · next hword => exact hgo _ ⟨hfree, hsettled, hword⟩ fun k hk => (Option.some.inj hk).symm
  · obtain ⟨hfree, hsettled, hword⟩ := hat
    split
    · next hlost =>
      refine hgo _ ⟨hfree, ?_⟩ nofun
      by_contra hphase
      have hrobust := (h.kinds hphase).2 t kind (by rw [hpc]; rfl)
      rw [hlost.2] at hrobust
      cases hrobust
    · refine hgo _ ⟨hfree, ?_, hword⟩ nofun
      rcases hsettled with hgone | ⟨hsame, -⟩ | ⟨-, hphase⟩
      · exact .inl hgone
      · exact absurd hsame hword
      · refine .inr (hphase.trans ?_)
        simp only [Bool.or_eq_true, decide_eq_true_eq]

theorem Sim.leave (mode : Mode) (hpc : s.pc t = .refuse ∨ s.pc t = .lost mode) :
    Kept g (s.advance t) := by
  have hinside : (s.pc t).inside = true := by rcases hpc with hpc | hpc <;> rw [hpc] <;> rfl
  obtain ⟨howner, -, hat⟩ := h.atInside hinside
  have hdone : ∀ {P : Prop}, (g.done t).calls t = some true → P := fun hl => by
    rw [Guard.done_calls] at hl
    cases hl
  have hidle : ∀ {P : Prop}, Pc.idle.acquiring = true → P := nofun
  rcases hpc with hpc | hpc <;> rw [hpc] at hat <;> simp only [State.advance, hpc]
  · obtain ⟨⟨hunheld, hholder⟩, hphase⟩ := hat
    refine h.keptFree (g.done t) .idle _ hinside (if_pos ?_)
      (fun _ hu => g.done_calls_of_ne hu) rfl hholder ?_ ⟨rfl, fun hheld => ?_⟩ rfl hidle hdone
    · exact hphase.symm.imp_left And.left
    · exact hphase.imp_right fun hp => .inl hp.symm
    · rw [hunheld] at hheld
      cases hheld
  · obtain ⟨⟨hunheld, hholder⟩, hphase⟩ := hat
    have hheld : ∀ {P : Prop}, s.held t = true → P := fun hheld => by
      rw [hunheld] at hheld
      cases hheld
    split
    · exact h.keptFree (g.done t) .idle _ hinside (if_pos (.inr hphase))
        (fun _ hu => g.done_calls_of_ne hu) rfl hholder (.inl hphase) ⟨rfl, hheld⟩ rfl hidle hdone
    · exact h.keptFree g .waitSelf none hinside rfl (fun _ _ => rfl) rfl
        hholder (.inl hphase) ⟨rfl, hheld⟩ rfl (fun _ => h.calls t (by rw [hpc]; rfl))
        fun _ => hphase

theorem Sim.stores (hpc : s.pc t = .storeOwner abandoned ∨ s.pc t = .storeCount abandoned ∨
      s.pc t = .storeUsers abandoned ∨ s.pc t = .storeTid abandoned) : Kept g (s.advance t) := by
  rcases hpc with hpc | hpc | hpc | hpc <;>
    have hat := (h.atInside (t := t) (by rw [hpc]; rfl)).2.2 <;>
    rw [hpc] at hat <;> simp only [State.advance, hpc] <;>
    refine h.keptWrite (by rw [hpc]; rfl) ⟨rfl, rfl⟩ rfl rfl rfl ?_ rfl
      (fun _ => by rw [hpc]; rfl) (by rw [hpc]; rfl)
  · exact ⟨hat.1, hat.2.1, rfl⟩
  · exact ⟨hat.1, hat.2.1, hat.2.2, rfl⟩
  · exact hat
  · exact hat

theorem Sim.insert (hpc : s.pc t = .insert abandoned) : Kept g (s.advance t) := by
  have hinside : (s.pc t).inside = true := by rw [hpc]; rfl
  obtain ⟨-, -, hat⟩ := h.atInside hinside
  rw [hpc] at hat
  obtain ⟨⟨hunheld, hholder⟩, hentering, hmarked, hcount⟩ := hat
  have hprompt : g.phase ≠ .destroyed → g.calls t = some false := fun hphase =>
    h.prompt hphase (by rw [hpc]; rfl) (by rw [hpc]; rfl)
  have htake : ∀ (allowed phase : Phase), phase ≠ .destroyed → allowed ≠ .notRecoverable →
      (g.phase = .destroyed ∨ g.phase = allowed) →
      (phase = .inconsistent ∧ s.ownerWord = inconsistent ∨ phase = .good ∧ s.ownerWord = t.id) →
      ∀ event, g.accept .asBuilt event = g.take t allowed phase →
      Kept g ({ s with held := Function.update s.held t true }.goto t .idle, some event) := by
    intro allowed phase hlive hfine hwas hwords event haccept
    by_cases hphase : g.phase = .destroyed
    · refine h.keptEvent { g.done t with holder := some (t, 1) } hinside ⟨rfl, rfl⟩ rfl rfl
        (fun _ hu => Function.update_of_ne hu _ _) (haccept.trans ?_)
        (fun _ hu => g.done_calls_of_ne hu) Iff.rfl id
        ⟨Function.update_self .., by simp [hcount], by simp [hcount], .inl hphase⟩ rfl rfl
        fun _ => hphase
      simp [Guard.take, hholder, hphase]
    have hallowed := hwas.resolve_left hphase
    refine h.keptEvent { g.done t with phase, holder := some (t, 1) } hinside ⟨rfl, rfl⟩
      rfl rfl (fun _ hu => Function.update_of_ne hu _ _) (haccept.trans ?_)
      (fun _ hu => g.done_calls_of_ne hu) (iff_of_false hlive hphase)
      (fun heq => absurd (hallowed.symm.trans heq) hfine)
      ⟨Function.update_self .., by simp [hcount], by simp [hcount], .inr hwords⟩ rfl rfl
      fun hl => ?_
    · simp [Guard.take, hholder, hallowed, hprompt hphase, hallowed ▸ hphase]
    · rw [show ({ g.done t with phase, holder := some (t, 1) } : Guard).calls t = none from
        g.done_calls t] at hl
      cases hl
  simp only [State.advance, hpc]
  cases abandoned with
  | true =>
    exact htake .ownerDead .inconsistent (by simp) (by simp) hentering (.inl ⟨rfl, hmarked⟩) _ rfl
  | false =>
    refine htake .good .good (by simp) (by simp) hentering (.inr ⟨rfl, hmarked⟩) _ ?_
    simp [Guard.accept, hholder]

omit h

end Acquire

section Release

section

variable (h : Sim g s)
include h

theorem Sim.unlockHeld (hpc : s.pc t = .unlockHeld) : Kept g (s.advance t) := by
  have hforget : s.pc t ≠ .forget := by simp [hpc]
  simp only [State.advance, hpc]
  refine h.keptQuiet (fun howner => ?_) (fun hne => ?_) (fun _ _ hk => ?_) (fun hacq => ?_)
    fun hs => by rw [hpc] at hs; cases hs
  · have hat := (h.owner t howner).2
    rw [hpc] at hat
    split <;> exact hat
  · have hunheld := h.unheld hforget hne
    simp [hunheld, Pc.inside]
  · split at hk <;> cases hk
  · split at hacq <;> cases hacq

theorem Sim.unlockCount (hpc : s.pc t = .unlockCount) : Kept g (s.advance t) := by
  have hat := (h.atInside (t := t) (by rw [hpc]; rfl)).2.2
  rw [hpc] at hat
  simp only [State.advance, hpc]
  refine h.keptWrite (by rw [hpc]; rfl) ⟨rfl, rfl⟩ rfl rfl rfl ?_ ?_ (fun hacq => ?_)
    (by rw [hpc]; rfl)
  · split
    · next hdeep => exact ⟨hat, rfl, hdeep⟩
    · next hlast =>
      have hpos : 0 < s.countWord := hat.2.1
      exact ⟨hat, by omega⟩
  · split <;> rfl
  · split at hacq <;> cases hacq

theorem Sim.unlockLower {depth : Nat} (hpc : s.pc t = .unlockLower depth) :
    Kept g (s.advance t) := by
  have hinside : (s.pc t).inside = true := by rw [hpc]; rfl
  have hat := (h.atInside hinside).2.2
  rw [hpc] at hat
  obtain ⟨⟨hheld, -, hholder, hphase⟩, hdepth, hdeep⟩ := hat
  simp only [State.advance, hpc]
  refine h.keptEvent { g with holder := some (t, depth - 1) } hinside ⟨rfl, rfl⟩ rfl rfl
    (fun _ _ => rfl) ?_ (fun _ _ => rfl) Iff.rfl id ⟨hheld, Nat.sub_pos_of_lt hdeep, rfl, hphase⟩
    rfl rfl fun hl => h.notLate (by rw [hpc]; rfl) hl
  simp [Guard.accept, hholder, hdepth, hdeep]

theorem Sim.unlockOwner (hpc : s.pc t = .unlockOwner) : Kept g (s.advance t) := by
  have hat := (h.atInside (t := t) (by rw [hpc]; rfl)).2.2
  rw [hpc] at hat
  simp only [State.advance, hpc]
  exact h.keptWrite (by rw [hpc]; rfl) ⟨rfl, rfl⟩ rfl rfl rfl ⟨hat.1, hat.2, rfl⟩ rfl
    nofun (by rw [hpc]; rfl)

theorem Sim.unlockStore {value : Nat} (hpc : s.pc t = .unlockStore value) :
    Kept g (s.advance t) := by
  have hinside : (s.pc t).inside = true := by rw [hpc]; rfl
  have hlate : ∀ {phase : Phase}, (g.phase = .destroyed → phase = .destroyed) →
      g.calls t = some true → phase = .destroyed := fun himp hl =>
    himp (h.notLate (by rw [hpc]; rfl) hl)
  have hat := (h.atInside hinside).2.2
  rw [hpc] at hat
  obtain ⟨⟨hheld, -, hholder, hphase⟩, hcount, hvalue⟩ := hat
  rw [hcount] at hholder
  simp only [State.advance, hpc]
  by_cases hdead : s.ownerWord = inconsistent
  · rw [if_pos hdead] at hvalue
    rw [if_pos hvalue]
    rcases hphase with hgone | ⟨hwas, -⟩ | ⟨-, hword⟩
    · refine h.keptEvent g hinside ⟨rfl, rfl⟩ rfl rfl (fun _ _ => rfl) ?_ (fun _ _ => rfl) Iff.rfl
        id ⟨hheld, hholder, .inl hgone⟩ rfl rfl fun _ => hgone
      simp [Guard.accept, hgone]
    · refine h.keptEvent { g with phase := .notRecoverable } hinside ⟨rfl, rfl⟩ rfl rfl
        (fun _ _ => rfl) ?_ (fun _ _ => rfl) (by simp [hwas]) (by simp)
        ⟨hheld, hholder, .inr (.inr ⟨rfl, hvalue⟩)⟩ rfl rfl fun hl => ?_
      · simp [Guard.accept, hholder, hwas]
      · exact hlate (fun hgone => by rw [hwas] at hgone; cases hgone) hl
    · exact absurd (hword.symm.trans hdead) t.valid.2.1
  · rw [if_neg hdead] at hvalue
    have hne : value ≠ notRecoverable := by
      rw [hvalue]
      exact notRecoverable_ne_zero.symm
    rw [if_neg hne]
    refine h.keptWrite hinside ⟨rfl, rfl⟩ rfl rfl rfl ⟨hheld, hholder, ?_⟩ rfl
      nofun (by rw [hpc]; rfl)
    rcases hphase with hgone | ⟨-, hword⟩ | ⟨hgood, -⟩
    · exact .inl hgone
    · exact absurd hword hdead
    · exact .inr (.inl ⟨hgood, hvalue⟩)

theorem Sim.clears (hpc : s.pc t = .clearCount ∨ s.pc t = .clearUsers ∨ s.pc t = .clearTid) :
    Kept g (s.advance t) := by
  rcases hpc with hpc | hpc | hpc <;>
    have hat := (h.atInside (t := t) (by rw [hpc]; rfl)).2.2 <;>
    rw [hpc] at hat <;> simp only [State.advance, hpc] <;>
    refine h.keptWrite (by rw [hpc]; rfl) ⟨rfl, rfl⟩ rfl rfl rfl ?_ rfl nofun (by rw [hpc]; rfl)
  · exact hat
  · exact hat
  · exact ⟨hat, rfl⟩

theorem Sim.release (hpc : s.pc t = .release) : Kept g (s.advance t) := by
  have hinside : (s.pc t).inside = true := by rw [hpc]; rfl
  obtain ⟨howner, -, hat⟩ := h.atInside hinside
  rw [hpc] at hat
  obtain ⟨⟨hheld, hholder, hphase⟩, htid⟩ := hat
  simp only [State.advance, hpc, if_pos howner]
  refine h.keptFree { g with holder := none } .forget (some (.released t)) hinside (if_pos ?_)
    (fun _ _ => rfl) rfl rfl ?_ ⟨rfl, fun _ => rfl⟩ rfl nofun
    fun hl => h.notLate (by rw [hpc]; rfl) hl
  · refine ⟨hholder, fun heq => ?_⟩
    rcases hphase with hgone | ⟨hgood, -⟩ | ⟨hlost, -⟩
    · rw [hgone] at heq
      cases heq
    · rw [hgood] at heq
      cases heq
    · rw [hlost] at heq
      cases heq
  · rcases hphase with hgone | ⟨hgood, hword⟩ | ⟨hlost, hword⟩
    · exact .inl hgone
    · refine .inr (.inr ⟨?_, by simp [hgood, htid]⟩)
      rw [hword]
      exact notRecoverable_ne_zero.symm
    · exact .inr (.inl ⟨hword, hlost⟩)

theorem Sim.forget (hpc : s.pc t = .forget) : Kept g (s.advance t) := by
  have hne : s.owner ≠ some t := fun howner => by
    have hat := (h.owner t howner).2
    rw [hpc] at hat
    exact hat
  simp only [State.advance, hpc]
  refine ⟨g, rfl, h.aside (t := t) (.goto rfl rfl (fun _ hu => Function.update_of_ne hu _ _)
    (fun _ _ => rfl) Iff.rfl id) (fun _ _ => id) (fun _ => ?_) (fun hnone => h.nobody hnone)
    (fun u hu => ?_) (fun _ _ hk => ?_) (fun hacq => ?_) fun hl => ?_⟩
  · rw [goto_pc]
    exact ⟨rfl, fun hheld => by simp [State.goto] at hheld⟩
  · have hut : u ≠ t := fun heq => hne (heq ▸ hu)
    rw [goto_pc_of_ne _ _ hut]
    exact ⟨(h.owner u hu).1, (h.owner u hu).2.congr rfl rfl (Function.update_of_ne hut _ _) rfl rfl
      rfl⟩
  · rw [goto_pc] at hk
    cases hk
  · rw [goto_pc] at hacq
    cases hacq
  · exact .inl (h.notLate (by rw [hpc]; rfl) hl)

end

end Release

section Repair

theorem Sim.consistentStart (h : Sim g s)
    (hpc : s.pc t = .consistentKind ∨ s.pc t = .consistentHeld ∨ s.pc t = .destroyTid) :
    Kept g (s.advance t) := by
  have hforget : s.pc t ≠ .forget := by rcases hpc with hpc | hpc | hpc <;> simp [hpc]
  have hholding : s.owner = some t → Holding g s t := fun howner => by
    have hat := (h.owner t howner).2
    rcases hpc with hpc | hpc | hpc <;> simpa only [hpc, OwnerAt] using hat
  rcases hpc with hpc | hpc | hpc <;> simp only [State.advance, hpc] <;>
    refine h.keptQuiet (fun howner => ?_) (fun hne => ?_) (fun _ _ hk => ?_) (fun hacq => ?_)
      fun hs => by rw [hpc] at hs; cases hs
  all_goals first
    | (split at hk <;> cases hk)
    | (split at hacq <;> cases hacq)
    | (split <;> exact hholding howner)
    | (have hunheld := h.unheld hforget hne; split <;> simp_all [Pc.inside])

theorem Sim.consistentOwner (h : Sim g s) (hpc : s.pc t = .consistentOwner) :
    Kept g (s.advance t) := by
  have hat := (h.atInside (t := t) (by rw [hpc]; rfl)).2.2
  rw [hpc] at hat
  simp only [State.advance, hpc]
  refine h.keptWrite (by rw [hpc]; rfl) ⟨rfl, rfl⟩ rfl rfl rfl ?_ ?_ (fun hacq => ?_)
    (by rw [hpc]; rfl)
  · split
    · next hword => exact ⟨hat, hword⟩
    · exact hat
  · split <;> rfl
  · split at hacq <;> cases hacq

theorem Sim.consistentStore (h : Sim g s) (hpc : s.pc t = .consistentStore) :
    Kept g (s.advance t) := by
  have hinside : (s.pc t).inside = true := by rw [hpc]; rfl
  have hat := (h.atInside hinside).2.2
  rw [hpc] at hat
  obtain ⟨⟨hheld, hpos, hholder, hphase⟩, hdead⟩ := hat
  simp only [State.advance, hpc]
  rcases hphase with hgone | ⟨hwas, -⟩ | ⟨-, hword⟩
  · refine h.keptEvent g hinside ⟨rfl, rfl⟩ rfl rfl (fun _ _ => rfl) ?_ (fun _ _ => rfl) Iff.rfl
      id ⟨hheld, hpos, hholder, .inl hgone⟩ rfl rfl fun _ => hgone
    simp [Guard.accept, hgone]
  · refine h.keptEvent { g with phase := .good } hinside ⟨rfl, rfl⟩ rfl rfl
      (fun _ _ => rfl) ?_ (fun _ _ => rfl) (by simp [hwas]) (by simp [hwas])
      ⟨hheld, hpos, hholder, .inr (.inr ⟨rfl, rfl⟩)⟩ rfl rfl fun hl => ?_
    · simp [Guard.accept, hholder, hwas]
    · have hgone := h.notLate (by rw [hpc]; rfl) hl
      rw [hwas] at hgone
      cases hgone
  · exact absurd (hword.symm.trans hdead) t.valid.2.1

theorem Sim.destroyKind (h : Sim g s) (hpc : s.pc t = .destroyKind) : Kept g (s.advance t) := by
  have hholding : s.owner = some t → Holding g s t := fun howner => by
    simpa only [hpc, OwnerAt] using (h.owner t howner).2
  have hquiet : Sim g (s.goto t .idle) :=
    h.quiet rfl rfl (fun _ _ => rfl) hholding (fun hne => ⟨rfl, fun hheld => by
        rw [h.unheld (by simp [hpc]) hne] at hheld
        cases hheld⟩) nofun nofun
      fun hl => .inl (h.notLate (by rw [hpc]; rfl) hl)
  simp only [State.advance, hpc]
  exact ⟨{ g with phase := .destroyed }, rfl, hquiet.outside,
    fun hnone => ⟨(hquiet.nobody hnone).1, .inl rfl⟩,
    fun u hu => ⟨(hquiet.owner u hu).1,
      ((hquiet.owner u hu).2.destroyed).congr rfl rfl rfl rfl rfl rfl⟩,
    fun hne => absurd rfl hne, hquiet.calls, fun _ _ => .inl rfl⟩

end Repair

section Steps

theorem Sim.advance (h : Sim g s) (t : Thread) : Kept g (s.advance t) := by
  have hstay : Kept g (s, none) := ⟨g, rfl, h⟩
  cases hpc : s.pc t with
  | idle | waitSelf => simpa only [State.advance, hpc] using hstay
  | acquireKind mode => exact h.acquireStart s.kind (.inl hpc)
  | acquireOwner mode kind => exact h.acquireStart kind (.inr hpc)
  | acquireHeld mode kind => exact h.acquireHeld hpc
  | countLoad => exact h.countLoad hpc
  | countStore depth => exact h.countStore hpc
  | wait mode kind => exact h.wait hpc
  | enteredOwner mode kind abandoned => exact h.entered (.inl hpc)
  | enteredTid mode kind abandoned => exact h.entered (.inr hpc)
  | refuse => exact h.leave .blocking (.inl hpc)
  | lost mode => exact h.leave mode (.inr hpc)
  | storeOwner abandoned => exact h.stores (.inl hpc)
  | storeCount abandoned => exact h.stores (.inr (.inl hpc))
  | storeUsers abandoned => exact h.stores (.inr (.inr (.inl hpc)))
  | storeTid abandoned => exact h.stores (.inr (.inr (.inr hpc)))
  | insert abandoned => exact h.insert hpc
  | unlockHeld => exact h.unlockHeld hpc
  | unlockCount => exact h.unlockCount hpc
  | unlockLower depth => exact h.unlockLower hpc
  | unlockOwner => exact h.unlockOwner hpc
  | unlockStore value => exact h.unlockStore hpc
  | clearCount => exact h.clears (.inl hpc)
  | clearUsers => exact h.clears (.inr (.inl hpc))
  | clearTid => exact h.clears (.inr (.inr hpc))
  | release => exact h.release hpc
  | forget => exact h.forget hpc
  | consistentKind => exact h.consistentStart (.inl hpc)
  | consistentHeld => exact h.consistentStart (.inr (.inl hpc))
  | consistentOwner => exact h.consistentOwner hpc
  | consistentStore => exact h.consistentStore hpc
  | destroyTid => exact h.consistentStart (.inr (.inr hpc))
  | destroyKind => exact h.destroyKind hpc

theorem Sim.call (h : Sim g s) (t : Thread) (call : Call) : Kept g (s.next (.call t call)) := by
  simp only [State.next]
  split
  · next hpc =>
    have hholding : s.owner = some t → Holding g s t := fun howner => by
      simpa only [hpc, OwnerAt] using (h.owner t howner).2
    have hunheld : s.owner ≠ some t → s.held t = false := h.unheld (by simp [hpc])
    have hheld : ∀ {P : Prop}, s.owner ≠ some t → s.held t = true → P := fun hne hheld => by
      rw [hunheld hne] at hheld
      cases hheld
    have hlate : (s.pc t).starting = true → ∀ {P : Prop}, P := fun hs => by
      rw [hpc] at hs
      cases hs
    cases call with
    | acquire mode =>
      refine ⟨_, rfl, h.quiet rfl rfl (fun _ hu => Function.update_of_ne hu _ _) hholding
        (fun hne => ⟨rfl, hheld hne⟩) nofun
        (fun _ => by simp [Call.first]) fun hl => .inr ⟨?_, rfl⟩⟩
      simpa using hl
    | unlock | consistent | destroy =>
      exact h.keptQuiet hholding (fun hne => ⟨rfl, hheld hne⟩) nofun nofun fun hs => hlate hs
  · exact ⟨g, rfl, h⟩

theorem Sim.fail (h : Sim g s) (t : Thread) (errno : Nat) : Kept g (s.next (.fail t errno)) := by
  simp only [State.next]
  split
  · next hwaiting =>
    refine h.keptFinish (fun howner => ?_) (h.unheld fun hpc => ?_) (h.accept_failed ?_ errno)
    · have hat := (h.owner t howner).2
      cases hpc : s.pc t <;> simp only [hpc, Pc.waiting, Bool.false_eq_true] at hwaiting <;>
        rw [hpc] at hat
      · exact hat
      · exact hat.elim
    · rw [hpc] at hwaiting
      cases hwaiting
    · cases hpc : s.pc t <;> simp [hpc, Pc.waiting, Pc.starting] at hwaiting ⊢
  · exact ⟨g, rfl, h⟩

theorem Sim.holder_or_acquiring (h : Sim g s) (howner : s.owner = some t) :
    (∃ depth, g.holder = some (t, depth)) ∨ g.holder = none ∧ (g.calls t).isSome = true := by
  have hat := (h.owner t howner).2
  have hcalls := h.calls t
  cases hpc : s.pc t <;> rw [hpc] at hat hcalls <;>
    simp only [OwnerAt, Free, Holding, Leaving, Pc.acquiring] at hat hcalls <;> grind

theorem Sim.owner_of_holder (h : Sim g s) {depth : Nat} (hholder : g.holder = some (t, depth)) :
    s.owner = some t := by
  cases howner : s.owner with
  | none =>
    rw [(h.nobody howner).1] at hholder
    cases hholder
  | some u =>
    rcases h.holder_or_acquiring howner with ⟨other, hu⟩ | ⟨hnone, -⟩
    · rw [hholder] at hu
      cases hu
      rfl
    · rw [hnone] at hholder
      cases hholder

theorem bereft_destroyed : g.bereft .asBuilt = .destroyed ↔ g.phase = .destroyed := by
  cases hphase : g.phase <;> simp [Guard.bereft, hphase]

theorem bereft_sticky (hphase : g.phase = .notRecoverable) :
    g.bereft .asBuilt = .notRecoverable := by
  simp [Guard.bereft, hphase]

theorem Sim.die (h : Sim g s) (t : Thread) : Kept g (s.next (.die t)) := by
  have hpc : (s.kill t).pc t = .idle := Function.update_self ..
  have hheld : (s.kill t).held t = false := Function.update_self ..
  have hpcs : ∀ u, u ≠ t → (s.kill t).pc u = s.pc u := fun _ hu => Function.update_of_ne hu _ _
  have hhelds : ∀ u, u ≠ t → (s.kill t).held u = s.held u :=
    fun _ hu => Function.update_of_ne hu _ _
  have hinside : ((s.kill t).pc t).inside = false ∧
      ((s.kill t).held t = true → (s.kill t).pc t = .forget) := by
    rw [hpc, hheld]
    exact ⟨rfl, nofun⟩
  have hkind : ((s.kill t).pc t).kind? = none := by rw [hpc]; rfl
  have hidle : ((s.kill t).pc t).acquiring = false := by rw [hpc]; rfl
  simp only [State.next]
  by_cases howner : s.owner = some t
  · have hfree : (s.kill t).owner = none := if_pos howner
    have habandoned : (s.kill t).abandoned = true := if_pos howner
    refine ⟨{ g.done t with phase := g.bereft .asBuilt, holder := none }, ?_,
      h.freeing ⟨rfl, hpcs, hhelds, fun _ hu => g.done_calls_of_ne hu, bereft_destroyed,
        bereft_sticky⟩ howner hfree ⟨rfl, ?_⟩ hinside hkind (fun hacq => ?_) fun hl => ?_⟩
    · have hrole := h.holder_or_acquiring howner
      simp only [howner, decide_true, Guard.accept, if_true]
      refine if_pos ?_
      rcases hrole with ⟨depth, hholder⟩ | hacquiring
      · exact .inl (by rw [hholder]; rfl)
      · exact .inr hacquiring
    · rw [habandoned]
      by_cases hgone : g.phase = .destroyed
      · exact .inl (bereft_destroyed.mpr hgone)
      have hword := h.word hgone
      by_cases hlost : g.phase = .notRecoverable
      · exact .inr (.inl ⟨hword.mpr hlost, bereft_sticky hlost⟩)
      · refine .inr (.inr ⟨fun heq => hlost (hword.mp heq), ?_⟩)
        cases hphase : g.phase <;> simp_all [Guard.bereft]
    · rw [hidle] at hacq
      cases hacq
    · rw [show ({ g.done t with phase := g.bereft .asBuilt, holder := none } : Guard).calls t = none
        from g.done_calls t] at hl
      cases hl
  · have hkept : (s.kill t).owner = s.owner := if_neg howner
    have habandoned : (s.kill t).abandoned = s.abandoned := if_neg howner
    refine ⟨g.done t, ?_, h.aside (t := t) ⟨rfl, hpcs, hhelds, fun _ hu => g.done_calls_of_ne hu,
      Iff.rfl, id⟩ (fun _ _ hu => hkept.trans hu) (fun _ => hinside) (fun hnone => ?_)
      (fun u hu => ?_) (fun _ _ hk => ?_) (fun hacq => ?_) fun hl => ?_⟩
    · have hnot : g.holder.map Prod.fst ≠ some t := fun heq => by
        obtain ⟨⟨u, depth⟩, hholder, rfl⟩ := Option.map_eq_some_iff.mp heq
        exact howner (h.owner_of_holder hholder)
      simp [howner, Guard.accept, hnot]
    · have hold := h.nobody (hkept.symm.trans hnone)
      rw [habandoned]
      exact hold
    · rw [hkept] at hu
      have hut : u ≠ t := fun heq => howner (heq ▸ hu)
      rw [hpcs u hut, habandoned]
      exact ⟨(h.owner u hu).1, (h.owner u hu).2.congr rfl rfl (hhelds u hut) rfl rfl rfl⟩
    · rw [hkind] at hk
      cases hk
    · rw [hidle] at hacq
      cases hacq
    · rw [Guard.done_calls] at hl
      cases hl

theorem Sim.next (h : Sim g s) (input : Input) : Kept g (s.next input) := by
  cases input with
  | call t call => exact h.call t call
  | step t => exact h.advance t
  | fail t errno => exact h.fail t errno
  | die t => exact h.die t

/-- A thread that does not hold changes nothing the others see by `unlock` or `consistent`. -/
theorem Sim.stranger (h : Sim g s) (hnot : g.holder.map Prod.fst ≠ some t)
    (hreleasing : (s.pc t).releasing = true) : ((s.next (.step t)).1).shared = s.shared := by
  have hoff : (s.pc t).inside = false := by
    by_contra hinside
    have hat := (h.atInside (t := t) (by simpa using hinside)).2.2
    cases hpc : s.pc t <;> rw [hpc] at hat hreleasing hinside <;>
      simp only [OwnerAt, Holding, Leaving, Pc.releasing, Pc.inside] at hat hreleasing hinside <;>
      grind
  cases hpc : s.pc t <;> rw [hpc] at hoff hreleasing <;>
    simp only [Pc.inside, Pc.releasing, Bool.true_eq_false, Bool.false_eq_true] at hoff hreleasing <;>
    simp [State.next, State.advance, hpc, State.goto, State.shared]

end Steps

/-! ### Runs -/

theorem sim_start (variety : Variety) : Sim Guard.start (State.start variety) where
  outside _ _ := ⟨rfl, nofun⟩
  nobody _ := ⟨rfl, .inr (.inr ⟨notRecoverable_ne_zero.symm, by simp [Guard.start, State.start]⟩)⟩
  owner _ howner := by cases howner
  kinds _ := ⟨rfl, nofun⟩
  calls _ hacq := by cases hacq
  late _ hl := by cases hl

theorem watched_sim (variety : Variety) (inputs : List Input) :
    ∃ g, (watched .asBuilt variety inputs).2 = some g ∧
      Sim g (watched .asBuilt variety inputs).1 := by
  have hstep : ∀ (w : State × Option Guard) (input : Input), (∃ g, w.2 = some g ∧ Sim g w.1) →
      ∃ g, (watch .asBuilt w input).2 = some g ∧ Sim g (watch .asBuilt w input).1 := by
    rintro ⟨s, guard⟩ input ⟨g, rfl, hsim⟩
    obtain ⟨g', haccept, hsim'⟩ := hsim.next input
    exact ⟨g', haccept, hsim'⟩
  exact (EveryState.of_invariant hstep inputs ⟨Guard.start, rfl, sim_start variety⟩).last

/-- In every run the guard accepts what is seen, who holds owns the kernel mutex, and a thread
that does not hold changes nothing by `unlock` or `consistent`. -/
theorem robust_mutex_recovers (variety : Variety) (inputs : List Input) :
    ∃ g, (watched .asBuilt variety inputs).2 = some g ∧ (∀ t depth, g.holder = some (t, depth) →
        (watched .asBuilt variety inputs).1.owner = some t) ∧
      ∀ t, g.holder.map Prod.fst ≠ some t →
        ((watched .asBuilt variety inputs).1.pc t).releasing = true →
        ((watched .asBuilt variety inputs).1.next (.step t)).1.shared =
          (watched .asBuilt variety inputs).1.shared := by
  obtain ⟨g, hguard, hsim⟩ := watched_sim variety inputs
  exact ⟨g, hguard, fun t depth hholder => hsim.owner_of_holder hholder,
    fun t hnot hreleasing => hsim.stranger hnot hreleasing⟩

/-! ### Three runs -/

def first : Thread := ⟨4, by decide⟩
def second : Thread := ⟨8, by decide⟩
def third : Thread := ⟨12, by decide⟩
def fourth : Thread := ⟨16, by decide⟩

/-- `t` takes `n` steps. -/
def steps (t : Thread) (n : Nat) : List Input := List.replicate n (.step t)

/-- `t` acquires a free mutex. -/
def acquires (t : Thread) : List Input := .call t (.acquire .blocking) :: steps t 11

/-- The holder dies, and the next one acquires twice before it calls `consistent`. -/
def acquiresTwice : List Input :=
  acquires first ++ .die first :: acquires second ++ .call second (.acquire .blocking) ::
    steps second 5

/-- The next one gives the mutex up, and dies before it releases it. -/
def diesLeaving : List Input :=
  acquires first ++ .die first :: acquires second ++ .call second .unlock :: steps second 4 ++
    .die second :: .call third (.acquire .blocking) :: steps third 2

/-- The mutex is destroyed while its holder is in `unlock` and others are in `acquire`. -/
def destroyedInUse : List Input :=
  acquires first ++ .call first .unlock :: steps first 7 ++
    [.call third (.acquire .blocking), .call fourth (.acquire .blocking), .call second .destroy] ++
    steps second 2 ++ .die first :: steps third 7 ++ steps fourth 11

theorem robust_mutex_not_as_stated : (watched .asStated .recursive acquiresTwice).2 = none ∧
      (watched .asStated .normal diesLeaving).2 = none ∧
      (watched .asStated .normal destroyedInUse).2 = none := by
  refine ⟨?_, ?_, ?_⟩ <;> decide

end Kinakaze.SharedMutex
