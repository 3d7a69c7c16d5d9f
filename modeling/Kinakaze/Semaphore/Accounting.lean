import Kinakaze.Semaphore.Apply
import Kinakaze.Library.Run

/-!
# The accounts of a semaphore set

The machine runs `semop`, `semctl` and `unshare_undo` of any processes on one set, with
processes dying in between and their debts settled by whoever comes by.  It keeps the
history of the set: the assignments, the committed operations, and whose debts were
settled.
-/

namespace Kinakaze.Semaphore

open Kinakaze.Library

/-! ## The machine -/

/-- Who an occupied slot belongs to. -/
def UndoEntry.owner? (e : UndoEntry) : Option Owner :=
  if h : 0 < e.pid then some ⟨e.pid, e.started, e.managed, h⟩ else none

/-- An event of the history: a value is assigned, an operation is committed, the debts of
some owners are settled. -/
inductive Entry where
  | assigned (s : Nat) (value : Int)
  | committed (owner : Option Owner) (op : Sembuf)
  | settled (owners : Owner → Bool)

structure State where
  nsems : Fin (SEMMSL + 1)
  set : SemHeader
  dead : List Owner
  history : List Entry

inductive Event where
  | semop (owner : Except Int Owner) (pid now : Int) (ops : List Sembuf) (seen : Owner → Bool)
  | setval (s : Nat) (value now : Int) (seen : Owner → Bool)
  | setall (values : Nat → BitVec 16) (now : Int) (seen : Owner → Bool)
  | semctl (seen : Owner → Bool)
  | unshare (o : Owner)
  | die (o : Owner)

/-- A new set. -/
def State.initial (nsems : Fin (SEMMSL + 1)) : State where
  nsems := nsems
  set :=
    { values := fun _ => 0, lastPid := fun _ => 0
      undo := List.replicate UNDO_SLOTS ⟨0, 0, 0, 0, 0⟩, otime := 0, ctime := 0 }
  dead := []
  history := []

/-- The slots of the owners of `p`. -/
def ownedBy (p : Owner → Bool) (e : UndoEntry) : Bool := e.owner?.any p

/-- Those among the dead whose death the liveness test sees. -/
def State.seenDead (st : State) (seen : Owner → Bool) (o : Owner) : Bool :=
  seen o && decide (o ∈ st.dead)

def State.reclaim (st : State) (p : Owner → Bool) : State :=
  { st with set := reclaimDeadUndo (ownedBy p) st.set, history := .settled p :: st.history }

/-- The history of an applied array. -/
def commits (owner : Option Owner) (ops : List Sembuf) (history : List Entry) : List Entry :=
  ops.foldl (fun history op => .committed owner op :: history) history

/-- `SETVAL`, after the debts of the dead are settled. -/
def State.setVal (st : State) (s : Nat) (value now : Int) : State :=
  if 0 ≤ value ∧ value ≤ SEMVMX then
    { st with
      set :=
        { st.set with
          values := Function.update st.set.values s value
          undo := clearUndo (some s) st.set.undo
          ctime := now }
      history := .assigned s value :: st.history }
  else st

/-- `SETALL`, after the debts of the dead are settled. -/
def State.setAll (st : State) (values : Nat → BitVec 16) (now : Int) : State :=
  if ∀ s < st.nsems.val, ((values s).toNat : Int) ≤ SEMVMX then
    { st with
      set :=
        { st.set with
          values := fun s => if s < st.nsems.val then (values s).toNat else st.set.values s
          undo := clearUndo none st.set.undo
          ctime := now }
      history := (List.range st.nsems).map (fun s => .assigned s (values s).toNat) ++ st.history }
  else st

/-- The end of an attempt of `semop`; one that would block settles the debts of the dead. -/
def State.attempted (st : State) (owner : Option Owner) (ops : List Sembuf)
    (seen : Owner → Bool) : Attempt × SemHeader → State
  | (.applied _, set) => { st with set, history := commits owner ops st.history }
  | (.blocked _, set) => State.reclaim { st with set } (st.seenDead seen)
  | (.failed _, set) => { st with set }

def step (st : State) : Event → State
  | .semop owner pid now ops seen =>
    if (∀ op ∈ ops, op.semNum < st.nsems.val) ∧ ops.length ≤ SEMOPM then
      st.attempted owner.toOption ops seen (tryApply owner pid now ops st.set)
    else st
  | .setval s value now seen =>
    if s < st.nsems.val then (st.reclaim (st.seenDead seen)).setVal s value now else st
  | .setall values now seen => (st.reclaim (st.seenDead seen)).setAll values now
  | .semctl seen => st.reclaim (st.seenDead seen)
  | .unshare o =>
    { st with
      set := unshareUndo o st.set
      history := .settled (fun other => decide (other = o)) :: st.history }
  | .die o => { st with dead := o :: st.dead }

/-! ## The accounts -/

/-- What the history makes of semaphore `s`: its last assigned value, and the operations
committed since then, but for those with `SEM_UNDO` of owners settled later, or among
`gone`. -/
def expected : (Owner → Bool) → List Entry → Nat → Int
  | _, [], _ => 0
  | gone, .assigned s' value :: history, s =>
    if s' = s then value else expected gone history s
  | gone, .committed owner op :: history, s =>
    (if op.semNum = s ∧ ¬(op.undoes ∧ owner.any gone) then op.delta else 0) +
      expected gone history s
  | gone, .settled p :: history, s => expected (fun o => gone o || p o) history s

/-- No slot that is settled takes its value out of range. -/
def SettlesInRange (settles : UndoEntry → Bool) : List UndoEntry → (Nat → Int) → Prop
  | [], _ => True
  | e :: undo, values =>
    if settles e then
      (e.semNum < SEMMSL → 0 ≤ values e.semNum + e.adjust ∧ values e.semNum + e.adjust ≤ SEMVMX) ∧
      SettlesInRange settles undo (if e.semNum < SEMMSL then
          Function.update values e.semNum (values e.semNum + e.adjust) else values)
    else SettlesInRange settles undo values

def SemHeader.SettlesInRange (h : SemHeader) (p : Owner → Bool) : Prop :=
  Semaphore.SettlesInRange (ownedBy p) h.undo h.values

/-- The step cuts nothing off at a bound, and is no `semop` that fails with `ENOSPC`. -/
def Unclamped (st : State) : Event → Prop
  | .semop owner pid now ops seen =>
    (tryApply owner pid now ops st.set).1 ≠ .failed ENOSPC ∧
    (∀ o, owner = .ok o → Unsaturated o (recordCalls o ops st.set) st.set.undo) ∧
    ((∃ index, (tryApply owner pid now ops st.set).1 = .blocked index) →
      st.set.SettlesInRange (st.seenDead seen))
  | .setval _ _ _ seen => st.set.SettlesInRange (st.seenDead seen)
  | .setall _ _ seen => st.set.SettlesInRange (st.seenDead seen)
  | .semctl seen => st.set.SettlesInRange (st.seenDead seen)
  | .unshare o => st.set.SettlesInRange fun other => decide (other = o)
  | .die _ => True

/-! ## Slots and their owners -/

variable {e : UndoEntry} {o : Owner} {s : Nat} {undo undo' : List UndoEntry}

theorem owner?_free (h : e.pid = 0) : e.owner? = none := by simp [UndoEntry.owner?, h]

theorem owedBy_iff : e.owedBy o = true ↔ e.owner? = some o := by
  obtain ⟨pid, started, managed, hpid⟩ := o
  unfold UndoEntry.owner?
  simp only [UndoEntry.owedBy, Bool.and_eq_true, beq_iff_eq]
  constructor
  · rintro ⟨⟨rfl, rfl⟩, rfl⟩
    simp [hpid]
  · intro h
    split at h
    · cases h
      exact ⟨⟨rfl, rfl⟩, rfl⟩
    · cases h

theorem owes_iff_owner : e.owes o s = true ↔ e.owner? = some o ∧ e.semNum = s := by
  simp [UndoEntry.owes, ← owedBy_iff]

/-- What the slots of the owners of `p` hold on semaphore `s`. -/
def worth (p : Owner → Bool) (undo : List UndoEntry) (s : Nat) : Int :=
  ((undo.filter fun e => ownedBy p e && e.semNum == s).map UndoEntry.adjust).sum

@[simp] theorem worth_nil (p : Owner → Bool) (s : Nat) : worth p [] s = 0 := rfl

@[simp] theorem worth_cons (p : Owner → Bool) (e : UndoEntry) (undo : List UndoEntry)
    (s : Nat) : worth p (e :: undo) s =
      (if ownedBy p e = true ∧ e.semNum = s then e.adjust else 0) + worth p undo s := by
  unfold worth
  by_cases h : ownedBy p e = true ∧ e.semNum = s
  · obtain ⟨hp, hs⟩ := h
    simp [hp, hs]
  · rw [if_neg h, List.filter_cons_of_neg (by simpa using h)]
    simp

@[simp] theorem worth_append (p : Owner → Bool) (xs ys : List UndoEntry) (s : Nat) :
    worth p (xs ++ ys) s = worth p xs s + worth p ys s := by
  simp [worth]

theorem UndoEntry.Holds.counts (h : e.Holds o s) (p : Owner → Bool) (s' : Nat) :
    (if ownedBy p e = true ∧ e.semNum = s' then e.adjust else 0) =
      if p o = true ∧ s = s' then e.worth o s else 0 := by
  rcases h with howes | hfree
  · obtain ⟨howner, rfl⟩ := owes_iff_owner.mp howes
    simp [ownedBy, howner, UndoEntry.worth, howes]
  · have hnone : ownedBy p e = false := by simp [ownedBy, owner?_free hfree]
    simp [hnone, UndoEntry.worth, owes_free hfree]

variable {delta : Int}

theorem recordUndo_worth (h : recordUndo o s delta undo = some undo')
    (p : Owner → Bool) (s' : Nat) : worth p undo' s' =
      worth p undo s' + if p o = true ∧ s = s' then delta + cut undo o s delta else 0 := by
  rcases recordUndo_split h with ⟨rfl, hzero⟩ | ⟨before, e, e', after, rfl, rfl, he, he', hworth, -⟩
  · rw [hzero, ite_self, add_zero]
  · rw [worth_append, worth_append, worth_cons, worth_cons, he.counts, he'.counts, hworth]
    split <;> ring

variable {calls : List (Nat × Int)}

/-- Without saturation and without a missed call the owners of `p` owe what was asked. -/
theorem replay_worth (h : Unsaturated o calls undo) (hmissed : missed o calls undo = [])
    (p : Owner → Bool) (s : Nat) :
    worth p (replay o calls undo) s = worth p undo s + if p o = true then asked calls s else 0 := by
  induction calls generalizing undo with
  | nil => simp [asked]
  | cons call calls ih =>
    obtain ⟨hrange, hrest⟩ := h
    rw [missed] at hmissed
    cases hcall : recordUndo o call.1 call.2 undo with
    | none => simp [hcall] at hmissed
    | some undo' =>
      rw [hcall] at hmissed
      have hnew : record o call undo = undo' := by rw [record, hcall, Option.getD_some]
      rw [hnew] at hrest
      rw [replay_cons, hnew, ih hrest hmissed, recordUndo_worth hcall, cut_eq_zero hrange, asked]
      by_cases hp : p o = true
      · by_cases hs : call.1 = s
        · simp only [hp, hs, and_self, if_true]
          ring
        · simp [hp, hs]
      · simp [hp]

/-! ## What every run keeps -/

/-- Two slots do not hold the same debt. -/
def Apart (a b : UndoEntry) : Prop := ∀ o s, ¬(a.owes o s = true ∧ b.owes o s = true)

theorem Apart.symm {a b : UndoEntry} (h : Apart a b) : Apart b a :=
  fun o s hboth => h o s hboth.symm

def OneEntry (undo : List UndoEntry) : Prop := undo.Pairwise Apart

/-- The occupied slots name semaphores of the set. -/
def Within (nsems : Nat) (undo : List UndoEntry) : Prop :=
  ∀ e ∈ undo, e.pid ≠ 0 → e.semNum < nsems

structure State.Sound (st : State) : Prop where
  inRange : ∀ s, 0 ≤ st.set.values s ∧ st.set.values s ≤ SEMVMX
  oneEntry : OneEntry st.set.undo
  within : Within st.nsems st.set.undo

theorem apart_free {a b : UndoEntry} (h : b.pid = 0) : Apart a b :=
  fun _ _ hboth => by rw [owes_free h] at hboth; cases hboth.2

variable {before after : List UndoEntry}

theorem OneEntry.replace {e e' : UndoEntry} (h : OneEntry (before ++ e :: after))
    (hnew : ∀ b ∈ before ++ after, Apart b e') : OneEntry (before ++ e' :: after) := by
  unfold OneEntry at *
  rw [List.pairwise_append, List.pairwise_cons] at h ⊢
  obtain ⟨hbefore, ⟨-, hafter⟩, hacross⟩ := h
  refine ⟨hbefore, ⟨fun b hb => (hnew b (by simp [hb])).symm, hafter⟩, fun a ha b hb => ?_⟩
  rcases List.mem_cons.mp hb with rfl | hb
  · exact hnew a (by simp [ha])
  · exact hacross a ha b (by simp [hb])

theorem OneEntry.others {e : UndoEntry}
    (h : OneEntry (before ++ e :: after)) : ∀ b ∈ before ++ after, Apart b e := by
  unfold OneEntry at h
  rw [List.pairwise_append, List.pairwise_cons] at h
  intro b hb
  rcases List.mem_append.mp hb with hb | hb
  · exact h.2.2 b hb e (by simp)
  · exact (h.2.1.1 b hb).symm

theorem OneEntry.recordUndo (h : OneEntry undo)
    (hrec : recordUndo o s delta undo = some undo') : OneEntry undo' := by
  rcases recordUndo_split hrec with
    ⟨rfl, -⟩ | ⟨before, e, e', after, rfl, rfl, he, he', -, hfrom⟩
  · exact h
  refine h.replace fun b hb o' s' hboth => ?_
  have hsame : o' = o ∧ s' = s := by
    by_contra hne
    rw [he'.owes_ne hne] at hboth
    cases hboth.2
  obtain ⟨rfl, rfl⟩ := hsame
  rcases hfrom hboth.2 with howes | hnone
  · exact h.others b hb o' s' ⟨hboth.1, howes⟩
  have hmem : b ∈ before ++ e :: after := by
    rcases List.mem_append.mp hb with hb | hb <;> simp [hb]
  rw [hnone b hmem] at hboth
  cases hboth.1

variable {nsems : Nat}

theorem Within.recordUndo (h : Within nsems undo)
    (hs : s < nsems) (hrec : recordUndo o s delta undo = some undo') : Within nsems undo' := by
  rcases recordUndo_split hrec with
    ⟨rfl, -⟩ | ⟨before, e, e', after, rfl, rfl, he, he', -, -⟩
  · exact h
  intro b hb hpid
  rcases List.mem_append.mp hb with hb | hb
  · exact h b (by simp [hb]) hpid
  rcases List.mem_cons.mp hb with rfl | hb
  · rcases he' with howes | hfree
    · exact (owes_iff_owner.mp howes).2 ▸ hs
    · exact absurd hfree hpid
  · exact h b (by simp [hb]) hpid

theorem replay_sound (hone : OneEntry undo) (hwithin : Within nsems undo)
    (hcalls : ∀ call ∈ calls, call.1 < nsems) :
    OneEntry (replay o calls undo) ∧ Within nsems (replay o calls undo) := by
  induction calls generalizing undo with
  | nil => exact ⟨hone, hwithin⟩
  | cons call calls ih =>
    rw [replay_cons, record]
    cases hcall : recordUndo o call.1 call.2 undo with
    | none => exact ih hone hwithin fun c hc => hcalls c (by simp [hc])
    | some undo' =>
      exact ih (hone.recordUndo hcall) (hwithin.recordUndo (hcalls call (by simp)) hcall)
        fun c hc => hcalls c (by simp [hc])

/-! ## What an attempt does -/

theorem tryApply_cases (owner : Except Int Owner) (pid now : Int) (ops : List Sembuf)
    (h : SemHeader) :
    (∃ attempt, ¬attempt.Applies ∧ tryApply owner pid now ops h = (attempt, h)) ∨
    (∃ o calls, (∀ call ∈ calls, ∃ op ∈ ops, op.semNum = call.1) ∧ tryApply owner pid now ops h =
        (.failed ENOSPC, { h with undo := replay o calls h.undo })) ∨
    ∃ changed candidate undo, Executes h.values ops candidate ∧ tryApply owner pid now ops h =
        (.applied changed, h.publish pid now candidate undo ops) ∧
      ((debts ops = [] ∧ undo = h.undo) ∨ ∃ o, owner = .ok o ∧ undo = replay o (debts ops) h.undo ∧
          missed o (debts ops) h.undo = [] ∧ recordCalls o ops h = debts ops) := by
  unfold tryApply
  cases hfeasible : feasible 0 h.values false ops with
  | error attempt => exact .inl ⟨attempt, (feasible_error hfeasible).1, rfl⟩
  | ok result =>
    obtain ⟨candidate, changed⟩ := result
    have hexec := feasible_ok hfeasible
    cases owner with
    | error errno =>
      cases hdebts : debts ops with
      | nil => exact .inr (.inr ⟨changed, candidate, h.undo, hexec, rfl, .inl ⟨rfl, rfl⟩⟩)
      | cons call rest =>
        exact .inl ⟨.failed errno, not_applies_failed errno, rfl⟩
    | ok o =>
      obtain ⟨made, rest, hdebts, hmade, heq⟩ := recordAll_spec o (debts ops) [] h.undo
      rw [List.nil_append] at heq
      by_cases hrest : rest = []
      · subst hrest
        rw [List.append_nil] at hdebts
        rw [if_pos rfl] at heq
        have hcalls : recordCalls o ops h = debts ops := by
          rw [recordCalls, hfeasible, heq, hdebts]
        refine .inr (.inr ⟨changed, candidate, replay o made h.undo, hexec, ?_, .inr ?_⟩)
        · simp only [heq]
        · exact ⟨o, rfl, hdebts ▸ rfl, hdebts ▸ hmade, hcalls⟩
      rw [if_neg hrest] at heq
      refine .inr (.inl ⟨o, made ++ takeBack made, fun call hc => ?_, ?_⟩)
      · have hmem : ∀ c ∈ made, ∃ op ∈ ops, op.semNum = c.1 := by
          intro c hc
          obtain ⟨op, hop, rfl⟩ := List.mem_map.mp
            (show c ∈ debts ops from hdebts ▸ List.mem_append_left rest hc)
          exact ⟨op, List.mem_of_mem_filter hop, rfl⟩
        rcases List.mem_append.mp hc with hc | hc
        · exact hmem call hc
        · obtain ⟨c, hmade', rfl⟩ := List.mem_map.mp hc
          exact hmem c hmade'
      · simp only [heq, unwind_eq, replay_append]

/-- What an array adds to semaphore `s`. -/
def moved (ops : List Sembuf) (s : Nat) : Int :=
  match ops with
  | [] => 0
  | op :: ops => (if op.semNum = s then op.delta else 0) + moved ops s

variable {values : Nat → Int} {values' : Nat → Int}

theorem Executes.sum {ops : List Sembuf}
    (h : Executes values ops values') (s : Nat) : values' s = values s + moved ops s := by
  induction h with
  | nil => simp [moved]
  | zero hdelta _ _ ih => rw [ih, moved, hdelta, ite_self, zero_add]
  | @change values _ op _ _ _ _ _ ih =>
    rw [ih, moved, Function.update_apply]
    by_cases hs : s = op.semNum
    · subst hs
      simp only [if_true]
      ring
    · rw [if_neg hs, if_neg (Ne.symm hs), zero_add]

theorem Executes.inRange {ops : List Sembuf} (h : Executes values ops values')
    (hvalues : ∀ s, 0 ≤ values s ∧ values s ≤ SEMVMX) (s : Nat) :
    0 ≤ values' s ∧ values' s ≤ SEMVMX := by
  induction h with
  | nil => exact hvalues s
  | zero _ _ _ ih => exact ih hvalues
  | @change values _ op _ _ hlow hhigh _ ih =>
    refine ih fun s' => ?_
    rw [Function.update_apply]
    split
    · exact ⟨hlow, hhigh⟩
    · exact hvalues s'

/-! ## Freeing slots -/

/-- The table with the slots of `q` freed. -/
def release (q : UndoEntry → Bool) (undo : List UndoEntry) : List UndoEntry :=
  undo.map fun e => if q e then { e with pid := 0, adjust := 0 } else e

theorem OneEntry.release (h : OneEntry undo) (q : UndoEntry → Bool) :
    OneEntry (release q undo) := by
  unfold OneEntry Semaphore.release at *
  rw [List.pairwise_map]
  refine h.imp fun {a b} hab => ?_
  by_cases hb : q b = true
  · rw [if_pos hb]
    exact apart_free rfl
  rw [if_neg hb]
  by_cases ha : q a = true
  · rw [if_pos ha]
    exact (apart_free rfl).symm
  · rwa [if_neg ha]

theorem Within.release (h : Within nsems undo) (q : UndoEntry → Bool) :
    Within nsems (release q undo) := by
  intro e he hpid
  obtain ⟨e', he', rfl⟩ := List.mem_map.mp he
  by_cases hq : q e' = true
  · rw [if_pos hq] at hpid
    exact absurd rfl hpid
  · rw [if_neg hq] at hpid ⊢
    exact h e' he' hpid

/-- The slots of `q` no longer count. -/
theorem worth_release (p : Owner → Bool) (q : UndoEntry → Bool) (s : Nat) :
    worth p (release q undo) s = (undo.map fun e =>
        if (ownedBy p e = true ∧ e.semNum = s) ∧ q e = false then e.adjust else 0).sum := by
  induction undo with
  | nil => rfl
  | cons e undo ih =>
    have hcons : release q (e :: undo) =
        (if q e then { e with pid := 0, adjust := 0 } else e) :: release q undo := rfl
    rw [hcons, worth_cons, ih, List.map_cons, List.sum_cons]
    congr 1
    by_cases hq : q e = true <;> simp [hq]

theorem worth_eq_sum (p : Owner → Bool) (s : Nat) : worth p undo s =
    (undo.map fun e => if ownedBy p e = true ∧ e.semNum = s then e.adjust else 0).sum := by
  induction undo with
  | nil => rfl
  | cons e undo ih => rw [worth_cons, ih, List.map_cons, List.sum_cons]

theorem worth_release_owned (p r : Owner → Bool) (s : Nat) :
    worth p (release (ownedBy r) undo) s = worth (fun o => p o && !r o) undo s := by
  rw [worth_release, worth_eq_sum]
  congr 1
  refine List.map_congr_left fun e _ => ?_
  cases howner : e.owner? with
  | none => simp [ownedBy, howner]
  | some o =>
    by_cases hp : p o = true <;> by_cases hr : r o = true <;> simp [ownedBy, howner, hp, hr]

theorem settle_undo (settles : UndoEntry → Bool) (undo : List UndoEntry) (values : Nat → Int) :
    (settle settles undo values).1 = release settles undo := by
  induction undo generalizing values with
  | nil => rfl
  | cons e undo ih =>
    rw [settle, release, List.map_cons]
    by_cases he : settles e = true
    · simp only [he, if_true]
      rw [ih]
      rfl
    · simp only [he, Bool.false_eq_true, if_false]
      rw [ih]
      rfl

theorem settleValue_inRange (value adjust : Int) :
    0 ≤ settleValue value adjust ∧ settleValue value adjust ≤ SEMVMX := by
  unfold settleValue SEMVMX
  omega

theorem settle_inRange {settles : UndoEntry → Bool} (h : ∀ s, 0 ≤ values s ∧ values s ≤ SEMVMX)
    (s : Nat) :
    0 ≤ (settle settles undo values).2 s ∧ (settle settles undo values).2 s ≤ SEMVMX := by
  induction undo generalizing values with
  | nil => exact h s
  | cons e undo ih =>
    rw [settle]
    split
    · refine ih fun s' => ?_
      split
      · rw [Function.update_apply]
        split
        · exact settleValue_inRange _ _
        · exact h s'
      · exact h s'
    · exact ih h

theorem settleValue_exact {value adjust : Int} (hlow : 0 ≤ value + adjust)
    (hhigh : value + adjust ≤ SEMVMX) : settleValue value adjust = value + adjust := by
  have hexact : (value + adjust).bmod (2 ^ 32) = value + adjust := by
    unfold SEMVMX at hhigh
    rw [Int.bmod_eq_of_le] <;> norm_num <;> omega
  rw [settleValue, hexact, min_eq_right hhigh, max_eq_right hlow]

theorem settle_values {r : Owner → Bool} (hnsems : nsems ≤ SEMMSL) (hwithin : Within nsems undo)
    (h : SettlesInRange (ownedBy r) undo values) (s : Nat) :
    (settle (ownedBy r) undo values).2 s = values s + worth r undo s := by
  induction undo generalizing values with
  | nil => simp [settle]
  | cons e undo ih =>
    have hrest : Within nsems undo := fun e' he' => hwithin e' (by simp [he'])
    rw [settle, worth_cons]
    rw [SettlesInRange] at h
    by_cases he : ownedBy r e = true
    · rw [if_pos he] at h
      obtain ⟨hrange, hlater⟩ := h
      have hpid : e.pid ≠ 0 := by
        intro hzero
        rw [ownedBy, owner?_free hzero] at he
        cases he
      have hsem : e.semNum < SEMMSL := (hwithin e (by simp) hpid).trans_le hnsems
      obtain ⟨hlow, hhigh⟩ := hrange hsem
      simp only [he, if_true, hsem] at hlater ⊢
      rw [settleValue_exact hlow hhigh]
      have hvalue := ih hrest hlater
      rw [hvalue, Function.update_apply]
      by_cases hs : s = e.semNum
      · subst hs
        simp only [if_true, true_and]
        ring
      · simp only [hs, Ne.symm hs, if_false, and_false]
        ring
    · rw [if_neg he] at h
      simp only [he, Bool.false_eq_true, if_false, false_and, zero_add]
      exact ih hrest h

/-! ## Soundness of a run -/

variable {st : State}

theorem State.Sound.release (h : st.Sound) (q : UndoEntry → Bool) {lastPid : Nat → Int}
    {otime ctime : Int} {history : List Entry} (hvalues : ∀ s, 0 ≤ values s ∧ values s ≤ SEMVMX) :
    State.Sound
      { st with set := ⟨values, lastPid, release q st.set.undo, otime, ctime⟩, history } where
  inRange := hvalues
  oneEntry := h.oneEntry.release q
  within := h.within.release q

theorem SemHeader.settle_eq (h : SemHeader) (q : UndoEntry → Bool) : h.settle q =
      { h with values := (Semaphore.settle q h.undo h.values).2, undo := release q h.undo } := by
  rw [SemHeader.settle, ← settle_undo q h.undo h.values]

theorem pid_and_ownedBy (p : Owner → Bool) (e : UndoEntry) :
    (e.pid != 0 && ownedBy p e) = ownedBy p e := by
  by_cases hpid : e.pid = 0
  · rw [ownedBy, owner?_free hpid]
    simp
  · simp [hpid]

theorem reclaim_eq (p : Owner → Bool) (h : SemHeader) :
    reclaimDeadUndo (ownedBy p) h = h.settle (ownedBy p) := by
  rw [reclaimDeadUndo]
  congr 1
  funext e
  exact pid_and_ownedBy p e

theorem unshare_eq (o : Owner) (h : SemHeader) :
    unshareUndo o h = h.settle (ownedBy fun other => decide (other = o)) := by
  rw [unshareUndo]
  congr 1
  funext e
  by_cases howed : e.owedBy o = true
  · rw [howed, ownedBy, owedBy_iff.mp howed]
    simp
  · cases howner : e.owner? with
    | none => simpa [ownedBy, howner] using howed
    | some other =>
      have hne : other ≠ o := fun heq => howed (owedBy_iff.mpr (heq ▸ howner))
      simp [ownedBy, howner, hne, howed]

theorem clearUndo_eq (semNum : Option Nat) (undo : List UndoEntry) : clearUndo semNum undo =
      release (fun e => e.pid != 0 && semNum.all fun wanted => decide (e.semNum = wanted)) undo := by
  rw [clearUndo, release]
  refine List.map_congr_left fun e _ => ?_
  by_cases hpid : e.pid = 0 <;> cases semNum <;> simp [hpid]

theorem State.Sound.reclaim (h : st.Sound) (p : Owner → Bool) : (st.reclaim p).Sound := by
  rw [State.reclaim, reclaim_eq, SemHeader.settle_eq]
  exact h.release _ (settle_inRange h.inRange)

theorem State.Sound.setVal (h : st.Sound) (s : Nat) (value now : Int) :
    (st.setVal s value now).Sound := by
  unfold State.setVal
  split
  · next hrange =>
    rw [clearUndo_eq]
    refine h.release _ fun s' => ?_
    rw [Function.update_apply]
    split
    · exact hrange
    · exact h.inRange s'
  · exact h

theorem State.Sound.setAll (h : st.Sound) (values : Nat → BitVec 16) (now : Int) :
    (st.setAll values now).Sound := by
  unfold State.setAll
  split
  · next hrange =>
    rw [clearUndo_eq]
    refine h.release _ fun s' => ?_
    split
    · next hs => exact ⟨Int.natCast_nonneg _, hrange s' hs⟩
    · exact h.inRange s'
  · exact h

theorem sound_initial (nsems : Fin (SEMMSL + 1)) : (State.initial nsems).Sound where
  inRange _ := ⟨le_rfl, (by decide : (0 : Int) ≤ SEMVMX)⟩
  oneEntry := by
    refine List.pairwise_replicate.mpr (.inr (apart_free rfl))
  within e he hpid := by
    rw [List.eq_of_mem_replicate he] at hpid
    exact absurd rfl hpid

theorem sound_step (st : State) (event : Event) (h : st.Sound) : (step st event).Sound := by
  cases event with
  | semop owner pid now ops seen =>
    rw [step]
    split
    · next hops =>
      rcases tryApply_cases owner pid now ops st.set with
        ⟨attempt, hattempt, heq⟩ | ⟨o, calls, hcalls, heq⟩ |
          ⟨changed, candidate, undo, hexec, heq, hundo⟩
      · rw [heq]
        cases attempt with
        | applied changed => exact absurd ⟨changed, rfl⟩ hattempt
        | blocked index => exact State.Sound.reclaim { h with } _
        | failed errno => exact h
      · rw [heq]
        obtain ⟨hone, hwithin⟩ := replay_sound (o := o) h.oneEntry h.within fun call hc => by
          obtain ⟨op, hop, heq⟩ := hcalls call hc
          exact heq ▸ hops.1 op hop
        exact ⟨h.inRange, hone, hwithin⟩
      · rw [heq]
        have hrange := hexec.inRange h.inRange
        rcases hundo with ⟨-, rfl⟩ | ⟨o, -, rfl, -, -⟩
        · exact ⟨hrange, h.oneEntry, h.within⟩
        have hcalls : ∀ call ∈ debts ops, call.1 < st.nsems.val := by
          intro call hc
          obtain ⟨op, hop, rfl⟩ := List.mem_map.mp hc
          exact hops.1 op (List.mem_of_mem_filter hop)
        obtain ⟨hone, hwithin⟩ := replay_sound (o := o) h.oneEntry h.within hcalls
        exact ⟨hrange, hone, hwithin⟩
    · exact h
  | setval s value now seen =>
    rw [step]
    split
    · exact (h.reclaim _).setVal s value now
    · exact h
  | setall values now seen => exact (h.reclaim _).setAll values now
  | semctl seen => exact h.reclaim _
  | unshare o =>
    rw [step, unshare_eq, SemHeader.settle_eq]
    exact h.release _ (settle_inRange h.inRange)
  | die o => exact { h with }

/-! ## The conservation law -/

/-- What the history leaves the owners of `p` owing on semaphore `s`. -/
def owed : (Owner → Bool) → List Entry → Nat → Int
  | _, [], _ => 0
  | p, .assigned s' _ :: history, s => if s' = s then 0 else owed p history s
  | p, .committed owner op :: history, s =>
    (if op.semNum = s ∧ op.undoes ∧ owner.any p then op.delta else 0) + owed p history s
  | p, .settled q :: history, s => owed (fun o => p o && !q o) history s

/-- A value is what the history makes of it, and a debt the reverse of what it is for. -/
structure State.Balanced (st : State) : Prop where
  values : ∀ s, st.set.values s = expected (fun _ => false) st.history s
  debts : ∀ p s, worth p st.set.undo s = -owed p st.history s

theorem expected_or (gone p : Owner → Bool) (history : List Entry) (s : Nat) :
    expected (fun o => gone o || p o) history s =
      expected gone history s - owed (fun o => p o && !gone o) history s := by
  induction history generalizing gone with
  | nil => rfl
  | cons entry history ih =>
    cases entry with
    | assigned s' value =>
      simp only [expected, owed]
      split
      · ring
      · exact ih gone
    | committed owner op =>
      simp only [expected, owed, ih gone]
      cases owner with
      | none =>
        simp only [Option.any_none, Bool.false_eq_true, and_false, if_false]
        ring
      | some o =>
        by_cases hs : op.semNum = s
        · cases hundo : op.undoes <;> cases hg : gone o <;> cases hp : p o <;>
            simp [hs, hg, hp] <;> ring
        · simp [hs]
    | settled q =>
      simp only [expected, owed]
      have hswap : (fun o => gone o || p o || q o) = fun o => gone o || q o || p o := by
        funext o
        rw [Bool.or_assoc, Bool.or_comm (p o), ← Bool.or_assoc]
      have hnot : (fun o => p o && !gone o && !q o) = fun o => p o && !(gone o || q o) := by
        funext o
        rw [Bool.not_or, Bool.and_assoc]
      rw [hswap, hnot]
      exact ih fun o => gone o || q o

theorem expected_settled (p : Owner → Bool) (history : List Entry) (s : Nat) :
    expected (fun _ => false) (.settled p :: history) s =
      expected (fun _ => false) history s - owed p history s := by
  have h := expected_or (fun _ => false) p history s
  simpa [expected] using h

theorem undone_cons (op : Sembuf) (ops : List Sembuf) (s : Nat) : undone (op :: ops) s =
      (if op.semNum = s ∧ op.undoes = true then op.delta else 0) + undone ops s := by
  have h := asked_debts (op :: ops) s
  have h' := asked_debts ops s
  by_cases hundo : op.undoes = true
  · have hdebts : debts (op :: ops) = (op.semNum, -op.delta) :: debts ops := by
      simp [debts, hundo]
    rw [hdebts, asked] at h
    by_cases hs : op.semNum = s
    · simp only [hs, hundo, and_self, if_true] at h ⊢
      omega
    · simp only [hs, false_and, if_false] at h ⊢
      omega
  · have hdebts : debts (op :: ops) = debts ops := by simp [debts, hundo]
    rw [hdebts] at h
    rw [if_neg fun hboth => hundo hboth.2]
    omega

theorem expected_commits (owner : Option Owner) (ops : List Sembuf) (history : List Entry)
    (s : Nat) : expected (fun _ => false) (commits owner ops history) s =
      expected (fun _ => false) history s + moved ops s := by
  induction ops generalizing history with
  | nil => simp [commits, moved]
  | cons op ops ih =>
    have hcons : commits owner (op :: ops) history =
        commits owner ops (.committed owner op :: history) := rfl
    have hnone : owner.any (fun _ => false) = false := by cases owner <;> rfl
    rw [hcons, ih, expected, moved, hnone]
    simp only [Bool.false_eq_true, and_false, not_false_eq_true, and_true]
    ring

theorem owed_commits (owner : Option Owner) (ops : List Sembuf) (history : List Entry)
    (p : Owner → Bool) (s : Nat) : owed p (commits owner ops history) s =
      owed p history s + if owner.any p then undone ops s else 0 := by
  induction ops generalizing history with
  | nil => simp [commits, undone]
  | cons op ops ih =>
    have hcons : commits owner (op :: ops) history =
        commits owner ops (.committed owner op :: history) := rfl
    rw [hcons, ih, owed, undone_cons]
    by_cases hp : owner.any p = true
    · simp only [hp, and_true, if_true]
      ring
    · simp [hp]

/-- Settling the debts of `p` keeps the balance. -/
theorem State.Balanced.settle (hsound : st.Sound) (h : st.Balanced) {p : Owner → Bool}
    (hrange : st.set.SettlesInRange p) :
    State.Balanced
      { st with set := st.set.settle (ownedBy p), history := .settled p :: st.history } := by
  have hnsems : st.nsems.val ≤ SEMMSL := Nat.le_of_lt_succ st.nsems.isLt
  constructor
  · intro s
    simp only [SemHeader.settle_eq]
    rw [settle_values hnsems hsound.within hrange, h.values, h.debts, expected_settled]
    ring
  · intro q s
    simp only [SemHeader.settle_eq, owed]
    rw [worth_release_owned, h.debts]

theorem State.Balanced.reclaim (hsound : st.Sound) (h : st.Balanced) {p : Owner → Bool}
    (hrange : st.set.SettlesInRange p) : (st.reclaim p).Balanced := by
  rw [State.reclaim, reclaim_eq]
  exact h.settle hsound hrange

theorem State.Balanced.setVal (h : st.Balanced) (s : Nat) (value now : Int) :
    (st.setVal s value now).Balanced := by
  unfold State.setVal
  split
  · constructor
    · intro s'
      simp only [expected, Function.update_apply]
      by_cases hs : s' = s
      · rw [if_pos hs, if_pos hs.symm]
      · rw [if_neg hs, if_neg (Ne.symm hs), h.values]
    · intro p s'
      simp only [clearUndo_eq, owed]
      rw [worth_release]
      by_cases hs : s = s'
      · subst hs
        rw [if_pos rfl, neg_zero]
        refine List.sum_eq_zero fun x hx => ?_
        obtain ⟨e, -, rfl⟩ := List.mem_map.mp hx
        refine if_neg ?_
        rintro ⟨⟨howned, hsem⟩, hq⟩
        by_cases hpid : e.pid = 0
        · rw [ownedBy, owner?_free hpid] at howned
          cases howned
        · simp [hpid, hsem] at hq
      · rw [if_neg hs, ← h.debts, worth_eq_sum]
        congr 1
        refine List.map_congr_left fun e _ => ?_
        by_cases hsem : e.semNum = s'
        · simp [hsem, Ne.symm hs]
        · simp [hsem]
  · exact h

theorem worth_release_all (p : Owner → Bool) (s : Nat) :
    worth p (release (fun e => e.pid != 0) undo) s = 0 := by
  rw [worth_release]
  refine List.sum_eq_zero fun x hx => ?_
  obtain ⟨e, -, rfl⟩ := List.mem_map.mp hx
  refine if_neg ?_
  rintro ⟨⟨howned, -⟩, hq⟩
  rw [ownedBy, owner?_free (by simpa using hq)] at howned
  cases howned

/-- What `SETALL` leaves of the history. -/
theorem expected_assigned (values : Nat → Int) (ss : List Nat) (history : List Entry)
    (p gone : Owner → Bool) (s : Nat) :
    expected gone (ss.map (fun s => .assigned s (values s)) ++ history) s =
        (if s ∈ ss then values s else expected gone history s) ∧
      owed p (ss.map (fun s => .assigned s (values s)) ++ history) s =
        if s ∈ ss then 0 else owed p history s := by
  induction ss with
  | nil => simp
  | cons s' ss ih =>
    obtain ⟨hvalue, howed⟩ := ih
    simp only [List.map_cons, List.cons_append, expected, owed, hvalue, howed, List.mem_cons]
    by_cases hs : s' = s
    · subst hs
      simp
    · simp [hs, Ne.symm hs]

theorem State.Balanced.setAll (hsound : st.Sound) (h : st.Balanced) (values : Nat → BitVec 16)
    (now : Int) : (st.setAll values now).Balanced := by
  unfold State.setAll
  split
  · constructor
    · intro s
      simp only
      rw [(expected_assigned (fun s => ((values s).toNat : Int)) _ _ (fun _ => false) _ s).1]
      simp only [List.mem_range, h.values]
    · intro p s
      have hrelease : clearUndo none st.set.undo = release (fun e => e.pid != 0) st.set.undo := by
        rw [clearUndo_eq]
        congr 1
        funext e
        simp
      simp only
      rw [(expected_assigned (fun s => ((values s).toNat : Int)) _ _ p (fun _ => false) s).2,
        hrelease, worth_release_all]
      split
      · rfl
      · next hs =>
        -- No slot names a semaphore outside the set.
        rw [← h.debts, worth_eq_sum]
        refine (List.sum_eq_zero fun x hx => ?_).symm
        obtain ⟨e, he, rfl⟩ := List.mem_map.mp hx
        refine if_neg ?_
        rintro ⟨howned, rfl⟩
        have hpid : e.pid ≠ 0 := by
          intro hzero
          rw [ownedBy, owner?_free hzero] at howned
          cases howned
        exact hs (List.mem_range.mpr (hsound.within e he hpid))
  · exact h

theorem balanced_initial (nsems : Fin (SEMMSL + 1)) : (State.initial nsems).Balanced where
  values _ := rfl
  debts p s := by
    rw [worth_eq_sum]
    refine List.sum_eq_zero fun x hx => ?_
    obtain ⟨e, he, rfl⟩ := List.mem_map.mp hx
    rw [List.eq_of_mem_replicate he]
    rfl

theorem balanced_step (event : Event) (hsound : st.Sound) (h : st.Balanced)
    (hok : Unclamped st event) : (step st event).Balanced := by
  cases event with
  | semop owner pid now ops seen =>
    rw [step]
    split
    · next hops =>
      obtain ⟨hspace, hrange, hblocked⟩ := hok
      rcases tryApply_cases owner pid now ops st.set with
        ⟨attempt, hattempt, heq⟩ | ⟨o, calls, -, heq⟩ |
          ⟨changed, candidate, undo, hexec, heq, hundo⟩
      · rw [heq] at hblocked ⊢
        cases attempt with
        | applied changed => exact absurd ⟨changed, rfl⟩ hattempt
        | blocked index => exact h.reclaim hsound (hblocked ⟨index, rfl⟩)
        | failed errno => exact h
      · rw [heq] at hspace
        exact absurd rfl hspace
      rw [heq]
      refine ⟨fun s => ?_, fun p s => ?_⟩
      · simp only [State.attempted, SemHeader.publish]
        rw [expected_commits, ← h.values, hexec.sum]
      · simp only [State.attempted, SemHeader.publish]
        rw [owed_commits]
        rcases hundo with ⟨hnone, rfl⟩ | ⟨o, rfl, rfl, hmissed, hcalls⟩
        · have hundone : undone ops s = 0 := by
            have hasked := asked_debts ops s
            rw [hnone, asked] at hasked
            omega
          rw [hundone, ite_self, add_zero, h.debts]
        · have hunsaturated := hrange o rfl
          rw [hcalls] at hunsaturated
          rw [replay_worth hunsaturated hmissed, h.debts, asked_debts]
          cases hp : p o
          · simp [Except.toOption, hp]
          · simp only [Except.toOption, Option.any_some, hp, if_true]
            ring
    · exact h
  | setval s value now seen =>
    rw [step]
    split
    · exact (h.reclaim hsound hok).setVal s value now
    · exact h
  | setall values now seen =>
    exact (h.reclaim hsound hok).setAll (hsound.reclaim _) values now
  | semctl seen => exact h.reclaim hsound hok
  | unshare o =>
    rw [step, unshare_eq]
    exact h.settle hsound hok
  | die o => exact ⟨h.values, h.debts⟩

/-! ## Reclaiming -/

theorem settle_none {q : UndoEntry → Bool} (values : Nat → Int)
    (h : ∀ e ∈ undo, q e = false) : settle q undo values = (undo, values) := by
  induction undo with
  | nil => rfl
  | cons e undo ih =>
    rw [settle, if_neg (by simp [h e (by simp)]), ih fun e' he' => h e' (by simp [he'])]

theorem reclaim_idempotent (p : Owner → Bool) (h : SemHeader) :
    reclaimDeadUndo (ownedBy p) (reclaimDeadUndo (ownedBy p) h) =
      reclaimDeadUndo (ownedBy p) h := by
  rw [reclaim_eq, reclaim_eq]
  have hnone : ∀ e ∈ (h.settle (ownedBy p)).undo, ownedBy p e = false := by
    intro e he
    rw [SemHeader.settle_eq] at he
    obtain ⟨e', -, rfl⟩ := List.mem_map.mp he
    by_cases howned : ownedBy p e' = true
    · rw [if_pos howned, ownedBy, owner?_free rfl]
      rfl
    · rw [if_neg howned]
      simpa using howned
  generalize h.settle (ownedBy p) = h' at hnone
  rw [SemHeader.settle, settle_none h'.values hnone]

/-- The dead are settled in the order of `ps`. -/
def reclaimAll (ps : List (Owner → Bool)) (h : SemHeader) : SemHeader :=
  ps.foldl (fun h p => reclaimDeadUndo (ownedBy p) h) h

/-- None of them clamps. -/
def AllInRange : List (Owner → Bool) → SemHeader → Prop
  | [], _ => True
  | p :: ps, h => h.SettlesInRange p ∧ AllInRange ps (reclaimDeadUndo (ownedBy p) h)

theorem reclaimAll_eq {ps : List (Owner → Bool)} {h : SemHeader}
    (hwithin : Within SEMMSL h.undo) (hrange : AllInRange ps h) :
    reclaimAll ps h = { h with
        values := fun s => h.values s + worth (fun o => ps.any fun p => p o) h.undo s
        undo := release (ownedBy fun o => ps.any fun p => p o) h.undo } := by
  induction ps generalizing h with
  | nil =>
    have hnone : ∀ e : UndoEntry, ownedBy (fun _ => false) e = false := by
      intro e
      cases howner : e.owner? <;> simp [ownedBy, howner]
    simp [reclaimAll, worth, release, hnone]
  | cons p ps ih =>
    obtain ⟨hfirst, hrest⟩ := hrange
    rw [reclaimAll, List.foldl_cons, ← reclaimAll]
    rw [reclaim_eq, SemHeader.settle_eq] at hrest ⊢
    rw [ih (hwithin.release _) hrest]
    have hworth : ∀ s, worth p h.undo s +
        worth (fun o => ps.any fun p => p o) (release (ownedBy p) h.undo) s =
          worth (fun o => (p :: ps).any fun p => p o) h.undo s := by
      intro s
      rw [worth_release_owned, worth_eq_sum, worth_eq_sum, worth_eq_sum, ← List.sum_map_add]
      congr 1
      refine List.map_congr_left fun e _ => ?_
      cases howner : e.owner? with
      | none => simp [ownedBy, howner]
      | some o => cases hp : p o <;> simp [ownedBy, howner, hp]
    have hrelease : release (ownedBy fun o => ps.any fun p => p o) (release (ownedBy p) h.undo) =
        release (ownedBy fun o => (p :: ps).any fun p => p o) h.undo := by
      rw [release, release, release, List.map_map]
      refine List.map_congr_left fun e _ => ?_
      cases howner : e.owner? with
      | none => simp [ownedBy, howner]
      | some o =>
        cases hp : p o
        · simp [ownedBy, howner, hp]
        have howned : ownedBy p e = true := by simp [ownedBy, howner, hp]
        have hall : ownedBy (fun o => (p :: ps).any fun p => p o) e = true := by
          simp [ownedBy, howner, hp]
        have hfreed : ownedBy (fun o => ps.any fun p => p o)
            { e with pid := 0, adjust := 0 } = false := by
          rw [ownedBy, owner?_free rfl]
          rfl
        rw [Function.comp, if_pos howned, if_pos hall, hfreed]
        rfl
    simp only [hrelease]
    congr 1
    funext s
    rw [settle_values le_rfl hwithin hfirst, add_assoc, hworth]

/-- The accounts of a set.  Values stay in range and a debt has one slot, whatever
happens.  While nothing is clamped and no `semop` finds the table full, a value is the
last one assigned and the operations committed since, but for those whose owners were
settled.  Reclaiming again changes nothing, and neither does another order. -/
theorem undo_accounting (nsems : Fin (SEMMSL + 1)) : (∀ st, Reachable step (· = .initial nsems) st →
      (∀ s, 0 ≤ st.set.values s ∧ st.set.values s ≤ SEMVMX) ∧ OneEntry st.set.undo) ∧
    (∀ events, EveryStep step Unclamped (.initial nsems) events →
      ∀ s, (run step (.initial nsems) events).set.values s =
        expected (fun _ => false) (run step (.initial nsems) events).history s) ∧
    (∀ st, Reachable step (· = .initial nsems) st →
      (∀ p, (st.reclaim p).set = reclaimDeadUndo (ownedBy p) (st.reclaim p).set) ∧
      ∀ ps qs : List (Owner → Bool), (∀ o, (ps.any fun p => p o) = qs.any fun q => q o) →
        AllInRange ps st.set → AllInRange qs st.set →
          reclaimAll ps st.set = reclaimAll qs st.set) := by
  have hsound : ∀ st, Reachable step (· = .initial nsems) st → st.Sound := fun st hst =>
    hst.invariant step (fun s hs => hs ▸ sound_initial nsems) fun s a hs => sound_step s a hs
  refine ⟨fun st hst => ⟨(hsound st hst).inRange, (hsound st hst).oneEntry⟩,
    fun events hevents => ?_, fun st hst => ⟨fun p => (reclaim_idempotent p st.set).symm, ?_⟩⟩
  · have hboth := run_preserves (P := fun st : State => st.Sound ∧ st.Balanced)
      (fun s a hs hok => ⟨sound_step s a hs.1, balanced_step a hs.1 hs.2 hok⟩)
      ⟨sound_initial nsems, balanced_initial nsems⟩ hevents
    exact hboth.2.values
  · intro ps qs hsame hps hqs
    have hwithin : Within SEMMSL st.set.undo := fun e he hpid =>
      ((hsound st hst).within e he hpid).trans_le (Nat.le_of_lt_succ st.nsems.isLt)
    rw [reclaimAll_eq hwithin hps, reclaimAll_eq hwithin hqs]
    simp only [hsame]

end Kinakaze.Semaphore
