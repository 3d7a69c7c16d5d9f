import Kinakaze.Semaphore.Debts

/-!
# `semop` is all or nothing

`Executes` says what an array of operations does to the values, one after the other, and
`AllOrNothing` what `semop` promises of it and of the debts.  `try_apply` keeps the
promise for the values.  For the debts it keeps it unless a debt saturates, or the unwind
after `ENOSPC` misses a debt: it takes the debts back in the order they were recorded, and
one that had cancelled out may have lost its slot to a later one.
-/

namespace Kinakaze.Semaphore

open Kinakaze.Library

/-! ## The promise -/

/-- The operations, one after the other: no value leaves its range, and a wait for zero
finds zero. -/
inductive Executes : (Nat → Int) → List Sembuf → (Nat → Int) → Prop
  | nil (values : Nat → Int) : Executes values [] values
  | zero {values values' : Nat → Int} {op : Sembuf} {ops : List Sembuf} (h : op.delta = 0)
      (hzero : values op.semNum = 0) (hrest : Executes values ops values') :
      Executes values (op :: ops) values'
  | change {values values' : Nat → Int} {op : Sembuf} {ops : List Sembuf} (h : op.delta ≠ 0)
      (hlow : 0 ≤ values op.semNum + op.delta) (hhigh : values op.semNum + op.delta ≤ SEMVMX)
      (hrest : Executes
        (Function.update values op.semNum (values op.semNum + op.delta)) ops values') :
      Executes values (op :: ops) values'

/-- The sum of the `SEM_UNDO` operations of an array on semaphore `s`. -/
def undone (ops : List Sembuf) (s : Nat) : Int :=
  ((ops.filter fun op => op.semFlg &&& SEM_UNDO != 0 && op.semNum == s).map Sembuf.delta).sum

def Attempt.Applies (a : Attempt) : Prop := ∃ changed, a = .applied changed

/-- What `semop` promises of one attempt.  The debts may not fit, or have no owner; apart
from that an array is refused only if it cannot be executed. -/
structure AllOrNothing (owner : Except Int Owner) (ops : List Sembuf) (h : SemHeader)
    (attempt : Attempt) (h' : SemHeader) : Prop where
  executes : attempt.Applies → Executes h.values ops h'.values
  refused : ¬attempt.Applies → attempt = .failed ENOSPC ∨
    (∃ errno, owner = .error errno ∧ attempt = .failed errno) ∨
      ∀ values, ¬Executes h.values ops values
  owed : attempt.Applies → ∀ o s, debt h'.undo o s =
    debt h.undo o s - if owner = .ok o then undone ops s else 0
  values : ¬attempt.Applies → h'.values = h.values
  lastPid : ¬attempt.Applies → h'.lastPid = h.lastPid
  debts : ¬attempt.Applies → ∀ o s, debt h'.undo o s = debt h.undo o s

theorem not_applies_failed (errno : Int) : ¬(Attempt.failed errno).Applies := by
  rintro ⟨changed, h⟩
  cases h

theorem not_applies_blocked (index : Nat) : ¬(Attempt.blocked index).Applies := by
  rintro ⟨changed, h⟩
  cases h

/-! ## The values -/

variable {ops : List Sembuf}

theorem feasible_ok {index : Nat} {values candidate : Nat → Int} {changed changed' : Bool}
    (h : feasible index values changed ops = .ok (candidate, changed')) :
    Executes values ops candidate := by
  induction ops generalizing index values changed with
  | nil =>
    cases h
    exact .nil _
  | cons op ops ih =>
    rw [feasible] at h
    dsimp only at h
    split at h
    · next hdelta =>
      split at h
      · cases h
      · next hzero => exact .zero hdelta (not_not.mp hzero) (ih h)
    · next hdelta =>
      split at h
      · cases h
      · next hhigh =>
        split at h
        · cases h
        · next hlow => exact .change hdelta (not_lt.mp hlow) (not_lt.mp hhigh) (ih h)

theorem feasible_error {index : Nat} {values : Nat → Int} {changed : Bool} {attempt : Attempt}
    (h : feasible index values changed ops = .error attempt) :
    ¬attempt.Applies ∧ ∀ values', ¬Executes values ops values' := by
  induction ops generalizing index values changed with
  | nil => cases h
  | cons op ops ih =>
    rw [feasible] at h
    dsimp only at h
    split at h
    · next hdelta =>
      split at h
      · next hzero =>
        cases h
        refine ⟨not_applies_blocked index, fun values' hrun => ?_⟩
        cases hrun with
        | zero _ hvalue _ => exact hzero hvalue
        | change hne _ _ _ => exact hne hdelta
      · obtain ⟨hattempt, hrest⟩ := ih h
        refine ⟨hattempt, fun values' hrun => ?_⟩
        cases hrun with
        | zero _ _ hrun => exact hrest _ hrun
        | change hne _ _ _ => exact hne hdelta
    · next hdelta =>
      split at h
      · next hhigh =>
        cases h
        refine ⟨not_applies_failed ERANGE, fun values' hrun => ?_⟩
        cases hrun with
        | zero hzero _ _ => exact hdelta hzero
        | change _ _ hle _ => exact absurd hhigh (not_lt.mpr hle)
      split at h
      · next hlow =>
        cases h
        refine ⟨not_applies_blocked index, fun values' hrun => ?_⟩
        cases hrun with
        | zero hzero _ _ => exact hdelta hzero
        | change _ hle _ _ => exact absurd hlow (not_lt.mpr hle)
      · obtain ⟨hattempt, hrest⟩ := ih h
        refine ⟨hattempt, fun values' hrun => ?_⟩
        cases hrun with
        | zero hzero _ _ => exact hdelta hzero
        | change _ _ _ hrun => exact hrest _ hrun

/-! ## The debts -/

theorem recordAll_spec (o : Owner) (calls recorded : List (Nat × Int)) (undo : List UndoEntry) :
    ∃ made rest, calls = made ++ rest ∧ missed o made undo = [] ∧
      recordAll (.ok o) calls recorded undo =
        (replay o made undo, recorded ++ made, if rest = [] then none else some ENOSPC) := by
  induction calls generalizing recorded undo with
  | nil => exact ⟨[], [], rfl, rfl, by simp [recordAll]⟩
  | cons call calls ih =>
    obtain ⟨s, delta⟩ := call
    rw [recordAll]
    cases hcall : recordUndo o s delta undo with
    | none => exact ⟨[], (s, delta) :: calls, rfl, rfl, by simp⟩
    | some undo' =>
      obtain ⟨made, rest, rfl, hmissed, heq⟩ := ih (recorded ++ [(s, delta)]) undo'
      refine ⟨(s, delta) :: made, rest, rfl, by simp [missed, hcall, hmissed], ?_⟩
      simp [heq, record, hcall]

/-- The calls of the unwind. -/
def takeBack (recorded : List (Nat × Int)) : List (Nat × Int) :=
  recorded.map fun call => (call.1, -call.2)

theorem unwind_eq (o : Owner) (recorded : List (Nat × Int)) (undo : List UndoEntry) :
    unwind (.ok o) recorded undo = replay o (takeBack recorded) undo := by
  rw [unwind, replay, takeBack, List.foldl_map]
  rfl

theorem asked_takeBack (recorded : List (Nat × Int)) (s : Nat) :
    asked (takeBack recorded) s = -asked recorded s := by
  induction recorded with
  | nil => rfl
  | cons call recorded ih =>
    rw [takeBack, List.map_cons, asked, asked]
    rw [takeBack] at ih
    rw [ih]
    by_cases hs : call.1 = s
    · simp only [hs, if_true]
      ring
    · simp [hs]

theorem asked_debts (ops : List Sembuf) (s : Nat) : asked (debts ops) s = -undone ops s := by
  induction ops with
  | nil => rfl
  | cons op ops ih =>
    have hzero : op.semOp = 0 → op.delta = 0 := by
      intro h
      rw [Sembuf.delta, h]
      rfl
    have hcons : undone (op :: ops) s =
        (if op.semFlg &&& SEM_UNDO != 0 && op.semNum == s then op.delta else 0) + undone ops s := by
      unfold undone
      by_cases h : (op.semFlg &&& SEM_UNDO != 0 && op.semNum == s) = true
      · rw [List.filter_cons_of_pos (by simpa using h), if_pos h]
        simp
      · rw [List.filter_cons_of_neg (by simpa using h), if_neg h]
        simp
    rw [hcons]
    by_cases hundo : op.undoes = true
    · have hdebts : debts (op :: ops) = (op.semNum, -op.delta) :: debts ops := by
        simp [debts, hundo]
      have hflag : (op.semFlg &&& SEM_UNDO != 0) = true := by
        simp only [Sembuf.undoes, Bool.and_eq_true] at hundo
        exact hundo.1
      rw [hdebts, asked, ih, hflag]
      by_cases hs : op.semNum = s
      · simp [hs]
        ring
      · simp [hs]
    · have hdebts : debts (op :: ops) = debts ops := by simp [debts, hundo]
      rw [hdebts, ih]
      by_cases hflag : (op.semFlg &&& SEM_UNDO != 0) = true
      · have hop : op.semOp = 0 := by
          by_contra hne
          refine hundo ?_
          rw [Sembuf.undoes, hflag, Bool.true_and]
          simpa using hne
        rw [hzero hop, ite_self, zero_add]
      · rw [Bool.eq_false_iff.mpr hflag, Bool.false_and, if_neg Bool.false_ne_true, zero_add]

theorem debts_steps {call : Nat × Int} (h : call ∈ debts ops) : -STEP ≤ call.2 ∧ call.2 ≤ STEP := by
  obtain ⟨op, -, rfl⟩ := List.mem_map.mp h
  have hlow := BitVec.le_toInt op.semOp
  have hhigh := BitVec.toInt_lt (x := op.semOp)
  simp only [Sembuf.delta, STEP]
  norm_num at hlow hhigh
  omega

theorem debts_length (ops : List Sembuf) : (debts ops).length ≤ ops.length := by
  rw [debts, List.length_map]
  exact List.length_filter_le _ _

/-! ## The condition -/

/-- The calls of `record_undo` that an array makes: those that record its debts and, when
one does not fit, those that take them back. -/
def recordCalls (o : Owner) (ops : List Sembuf) (h : SemHeader) : List (Nat × Int) :=
  match feasible 0 h.values false ops with
  | .error _ => []
  | .ok _ =>
    match recordAll (.ok o) (debts ops) [] h.undo with
    | (_, recorded, none) => recorded
    | (_, recorded, some _) => recorded ++ takeBack recorded

/-- No call saturates a debt, and those that find neither the debt nor a free slot
cancel out for every semaphore. -/
def Unwinds (owner : Except Int Owner) (ops : List Sembuf) (h : SemHeader) : Prop :=
  ∀ o, owner = .ok o → Unsaturated o (recordCalls o ops h) h.undo ∧
    ∀ s, asked (missed o (recordCalls o ops h) h.undo) s = 0

theorem replay_eq_iff {o : Owner} {calls : List (Nat × Int)} (undo : List UndoEntry)
    (hlength : calls.length ≤ 2 * SEMOPM)
    (hsteps : ∀ call ∈ calls, -STEP ≤ call.2 ∧ call.2 ≤ STEP) :
    (∀ s, debt (replay o calls undo) o s = debt undo o s + asked calls s) ↔
      Unsaturated o calls undo ∧ ∀ s, asked (missed o calls undo) s = 0 := by
  constructor
  · intro heq
    have hrange : Unsaturated o calls undo := by
      by_contra hsaturated
      obtain ⟨s, hne⟩ := replay_ne hsaturated hlength hsteps
      exact hne (heq s)
    refine ⟨hrange, fun s => ?_⟩
    have hdebt := replay_debt hrange s
    have hexact := heq s
    omega
  · rintro ⟨hrange, hmissed⟩ s
    rw [replay_debt hrange, hmissed]
    ring

/-- `try_apply` keeps the promise exactly if its calls of `record_undo` come out. -/
theorem all_or_nothing_iff (owner : Except Int Owner) (pid now : Int) (ops : List Sembuf)
    (h : SemHeader) (hops : ops.length ≤ SEMOPM) :
    AllOrNothing owner ops h (tryApply owner pid now ops h).1 (tryApply owner pid now ops h).2 ↔
      Unwinds owner ops h := by
  unfold tryApply Unwinds
  cases hfeasible : feasible 0 h.values false ops with
  | error attempt =>
    obtain ⟨hattempt, hrun⟩ := feasible_error hfeasible
    have hcalls : ∀ o, recordCalls o ops h = [] := fun o => by rw [recordCalls, hfeasible]
    refine ⟨fun _ o _ => by rw [hcalls]; exact ⟨trivial, fun s => rfl⟩, fun _ => ?_⟩
    exact
      { executes := fun happlies => absurd happlies hattempt
        refused := fun _ => .inr (.inr hrun)
        owed := fun happlies => absurd happlies hattempt
        values := fun _ => rfl
        lastPid := fun _ => rfl
        debts := fun _ _ _ => rfl }
  | ok result =>
    obtain ⟨candidate, changed⟩ := result
    have hexec := feasible_ok hfeasible
    cases howner : owner with
    | error errno =>
      refine ⟨fun _ o ho => (by cases ho), fun _ => ?_⟩
      cases hdebts : debts ops with
      | nil =>
        have hundone : ∀ s, undone ops s = 0 := by
          intro s
          have h := asked_debts ops s
          rw [hdebts, asked] at h
          omega
        simp only [recordAll]
        exact
          { executes := fun _ => hexec
            refused := fun hrefused => absurd ⟨changed, rfl⟩ hrefused
            owed := fun _ o s => by simp [SemHeader.publish]
            values := fun hrefused => absurd ⟨changed, rfl⟩ hrefused
            lastPid := fun hrefused => absurd ⟨changed, rfl⟩ hrefused
            debts := fun hrefused => absurd ⟨changed, rfl⟩ hrefused }
      | cons call rest =>
        simp only [recordAll, unwind, List.foldl_nil]
        exact
          { executes := fun happlies => absurd happlies (not_applies_failed errno)
            refused := fun _ => .inr (.inl ⟨errno, rfl, rfl⟩)
            owed := fun happlies => absurd happlies (not_applies_failed errno)
            values := fun _ => rfl
            lastPid := fun _ => rfl
            debts := fun _ _ _ => rfl }
    | ok o =>
      obtain ⟨made, rest, hdebts, hmade, heq⟩ := recordAll_spec o (debts ops) [] h.undo
      rw [List.nil_append] at heq
      have hlength := debts_length ops
      have hsteps : ∀ call ∈ made, -STEP ≤ call.2 ∧ call.2 ≤ STEP :=
        fun call hc => debts_steps (hdebts ▸ List.mem_append_left rest hc)
      rw [hdebts, List.length_append] at hlength
      by_cases hrest : rest = []
      · -- All debts are recorded: the array is applied.
        subst hrest
        rw [List.append_nil] at hdebts
        have hasked : ∀ s, asked made s = -undone ops s := fun s => hdebts ▸ asked_debts ops s
        have hexact := replay_eq_iff (o := o) h.undo (by omega) hsteps
        rw [if_pos rfl] at heq
        have hcalls : recordCalls o ops h = made := by rw [recordCalls, hfeasible, heq]
        simp only [heq]
        constructor
        · intro hall o' ho'
          cases ho'
          rw [hcalls]
          refine hexact.mp fun s => ?_
          have howed := hall.owed ⟨changed, rfl⟩ o s
          rw [if_pos rfl] at howed
          rw [hasked]
          exact howed.trans (sub_eq_add_neg _ _)
        · intro hcond
          have hdebt := hexact.mpr (hcalls ▸ hcond o rfl)
          exact
            { executes := fun _ => hexec
              refused := fun hrefused => absurd ⟨changed, rfl⟩ hrefused
              owed := fun _ o' s => by
                by_cases ho : o' = o
                · subst ho
                  rw [if_pos rfl]
                  exact (hdebt s).trans (by rw [hasked]; ring)
                · rw [if_neg fun hsame => ho (Except.ok.inj hsame).symm, sub_zero]
                  exact replay_other made ho
              values := fun hrefused => absurd ⟨changed, rfl⟩ hrefused
              lastPid := fun hrefused => absurd ⟨changed, rfl⟩ hrefused
              debts := fun hrefused => absurd ⟨changed, rfl⟩ hrefused }
      · -- One does not fit: those recorded are taken back.
        rw [if_neg hrest] at heq
        have hcalls : recordCalls o ops h = made ++ takeBack made := by
          rw [recordCalls, hfeasible, heq]
        simp only [heq]
        have hsteps' : ∀ call ∈ made ++ takeBack made, -STEP ≤ call.2 ∧ call.2 ≤ STEP := by
          intro call hc
          rcases List.mem_append.mp hc with hc | hc
          · exact hsteps call hc
          obtain ⟨c, hmem, rfl⟩ := List.mem_map.mp hc
          have hstep := hsteps c hmem
          simp only
          omega
        have hlength' : (made ++ takeBack made).length ≤ 2 * SEMOPM := by
          rw [List.length_append, takeBack, List.length_map]
          omega
        have hexact := replay_eq_iff (o := o) h.undo hlength' hsteps'
        have hzero : ∀ s, asked (made ++ takeBack made) s = 0 := by
          intro s
          rw [asked_append, asked_takeBack]
          ring
        constructor
        · intro hall o' ho'
          cases ho'
          rw [hcalls]
          refine hexact.mp fun s => ?_
          have hsame := hall.debts (not_applies_failed ENOSPC) o s
          simp only [unwind_eq] at hsame
          rw [replay_append, hzero, add_zero]
          exact hsame
        · intro hcond
          have hdebt := hexact.mpr (hcalls ▸ hcond o rfl)
          exact
            { executes := fun happlies => absurd happlies (not_applies_failed ENOSPC)
              refused := fun _ => .inl rfl
              owed := fun happlies => absurd happlies (not_applies_failed ENOSPC)
              values := fun _ => rfl
              lastPid := fun _ => rfl
              debts := fun _ o' s => by
                simp only [unwind_eq]
                rw [← replay_append]
                by_cases ho : o' = o
                · subst ho
                  rw [hdebt, hzero, add_zero]
                · exact replay_other _ ho }

/-! ## A lost debt -/

def holder : Owner := ⟨1, 0, 0, by decide⟩

/-- The holder owes semaphore 0, and other processes fill the other slots. -/
def fullTable : List UndoEntry :=
  holder.entry 0 1 :: (List.range 127).map fun n => ⟨n + 2, 0, 0, 1, 0⟩

def fullSet : SemHeader :=
  { values := fun _ => 0, lastPid := fun _ => 0, undo := fullTable, otime := 0, ctime := 0 }

/-- Post semaphores 0, 1 and 2. -/
def posts : List Sembuf := [⟨0, 1, SEM_UNDO⟩, ⟨1, 1, SEM_UNDO⟩, ⟨2, 1, SEM_UNDO⟩]

set_option maxRecDepth 4096 in
/-- The array is refused for want of a third slot, and the debt on semaphore 0, whose
slot the debt on semaphore 1 took, is gone. -/
theorem posts_lose_debt :
    (tryApply (.ok holder) 1 0 posts fullSet).1 = .failed ENOSPC ∧ debt fullSet.undo holder 0 = 1 ∧
      debt (tryApply (.ok holder) 1 0 posts fullSet).2.undo holder 0 = 0 ∧
      ¬AllOrNothing (.ok holder) posts fullSet (tryApply (.ok holder) 1 0 posts fullSet).1
        (tryApply (.ok holder) 1 0 posts fullSet).2 := by
  have hattempt : (tryApply (.ok holder) 1 0 posts fullSet).1 = .failed ENOSPC := by decide
  have hbefore : debt fullSet.undo holder 0 = 1 := by decide
  have hafter : debt (tryApply (.ok holder) 1 0 posts fullSet).2.undo holder 0 = 0 := by decide
  refine ⟨hattempt, hbefore, hafter, fun hall => ?_⟩
  have hsame := hall.debts (by rw [hattempt]; exact not_applies_failed ENOSPC) holder 0
  rw [hbefore, hafter] at hsame
  cases hsame

/-- The same set with a free slot. -/
def spareSet : SemHeader := { fullSet with undo := ⟨0, 0, 0, 0, 0⟩ :: fullTable.dropLast }

set_option maxRecDepth 4096 in
/-- With a slot to spare the same array is applied as promised. -/
theorem posts_applied :
    AllOrNothing (.ok holder) posts spareSet (tryApply (.ok holder) 1 0 posts spareSet).1
      (tryApply (.ok holder) 1 0 posts spareSet).2 := by
  refine (all_or_nothing_iff (.ok holder) 1 0 posts _ (by decide)).mpr fun o ho => ?_
  cases ho
  have hcalls : recordCalls holder posts spareSet = [(0, -1), (1, -1), (2, -1)] := by decide
  rw [hcalls]
  refine ⟨?_, fun s => ?_⟩
  · simp only [Unsaturated]
    decide
  · have hmissed : missed holder [(0, -1), (1, -1), (2, -1)] spareSet.undo = [] := by decide
    exact congrArg (asked · s) hmissed

end Kinakaze.Semaphore
