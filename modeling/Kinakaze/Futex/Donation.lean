import Kinakaze.Futex.Table
import Kinakaze.Library.Propagation

/-!
# Priority donation of PI futexes

A task that waits for a PI futex lends its priority to the owner.
-/

namespace Kinakaze.Futex.Pi

open Library.Propagation Relation

def DEAD : BitVec 32 := 1 <<< 27

structure Identity where
  born : BitVec 64
  host : BitVec 32
  thread : BitVec 32
  deriving DecidableEq

/-- `Identity::from(record)`. -/
def Identity.of (record : Record) : Identity := ⟨record.born, record.host, record.thread⟩

structure Task where
  identity : Identity
  namespaceId : BitVec 64
  tid : BitVec 32
  base : Int
  applied : Int
  priorityClass : Int
  deriving DecidableEq

/-- The priority of a task at a native level. -/
def Task.absolute (task : Task) (relative : Int) : Int :=
  if relative = -15 then if task.priorityClass = 24 then 16 else 1
  else if relative = 15 then if task.priorityClass = 24 then 31 else 15
  else task.priorityClass + relative

/-- The native levels of `Task::relative`. -/
def LEVELS : List Int := [-15, -2, -1, 0, 1, 2, 15]

/-- `Iterator::min_by_key`: the first of the smallest. -/
def minByKey {α : Type} (key : α → Int) : List α → Option α
  | [] => none
  | x :: rest =>
    match minByKey key rest with
    | none => some x
    | some y => if key x ≤ key y then some x else some y

def Task.relative (task : Task) (floor : Int) : Int :=
  (minByKey task.absolute (LEVELS.filter fun level =>
    task.absolute level ≥ floor && task.absolute level ≥ task.absolute task.base)).getD 15

variable (dead : Record → Bool)

/-- The live state of a futex. -/
def liveState (records : List Record) (key : Key) : Option Record :=
  records.find? fun state => state.key = key && state.reserved &&& STATE != 0 &&
    state.reserved &&& DEAD == 0

/-- The owner that a waiting record lends to and the donor, as places in the list of tasks. -/
def donation (records : List Record) (tasks : List Task) (waiter : Record) : Option (Nat × Nat) := do
  let state ← liveState records waiter.key
  if state.token = waiter.token then none
  else
    let owner ← tasks.findIdx? fun task => task.identity = Identity.of state
    let donor ← tasks.findIdx? fun task => task.identity = Identity.of waiter
    return (owner, donor)

/-- The records that wait, whose threads live. -/
def waiters (records : List Record) : List Record :=
  records.filter fun record => record.piWait && !dead record

/-- One record of a sweep, with whether something has changed. -/
def donate (records : List Record) (tasks : List Task) (sweep : List Int × Bool)
    (waiter : Record) : List Int × Bool :=
  match donation records tasks waiter with
  | none => sweep
  | some (owner, donor) =>
    if sweep.1.getD owner 0 < sweep.1.getD donor 0 then
      (sweep.1.set owner (sweep.1.getD donor 0), true)
    else sweep

/-- The sweeps, until one changes nothing. -/
def propagate (records : List Record) (tasks : List Task) : Nat → List Int → List Int
  | 0, effective => effective
  | turns + 1, effective =>
    let (effective, changed) :=
      (waiters dead records).foldl (donate records tasks) (effective, false)
    if changed then propagate records tasks turns effective else effective

def effective (records : List Record) (tasks : List Task) : List Int :=
  propagate dead records tasks tasks.length (tasks.map fun task => task.absolute task.base)

/-- The tasks with the levels that are applied to their threads. -/
def priorities (records : List Record) (tasks : List Task) : List Task :=
  tasks.zipWith (fun task floor => { task with applied := task.relative floor })
    (effective dead records tasks)

/-- `state`: the first state of a futex, live or not. -/
def state (records : List Record) (key : Key) : Option Record :=
  records.find? fun record => record.key = key && record.reserved &&& STATE != 0

/-- The owner of the futex that a thread waits for, `none` where the search of `cycle` ends. -/
def nextOwner (records : List Record) (owner : Identity) : Option Identity := do
  let waiter ← records.find? fun record => record.piWait && Identity.of record = owner
  let state ← state records waiter.key
  if state.token = waiter.token ∨ state.reserved &&& DEAD ≠ 0 then none
  else return Identity.of state

def cycleFrom (records : List Record) (waiting : Identity) : Nat → Identity → Bool
  | 0, _ => true
  | turns + 1, owner =>
    if owner = waiting then true
    else
      match nextOwner records owner with
      | none => false
      | some owner => cycleFrom records waiting turns owner

def cycle (records : List Record) (waiting owner : Identity) : Bool :=
  cycleFrom records waiting (records.length + 1) owner

/-! ## The values -/

section Values

variable (records : List Record) (tasks : List Task)

/-- The edges of a sweep in the order of the records. -/
def edges : List (Nat × Nat) := (waiters dead records).filterMap (donation records tasks)

def values (effective : List Int) (i : Nat) : Int := effective.getD i 0

theorem donation_lt {waiter : Record} {edge : Nat × Nat}
    (h : donation records tasks waiter = some edge) :
    edge.1 < tasks.length ∧ edge.2 < tasks.length := by
  unfold donation at h
  obtain ⟨state, -, h⟩ := Option.bind_eq_some_iff.mp h
  split at h
  · cases h
  obtain ⟨owner, howner, h⟩ := Option.bind_eq_some_iff.mp h
  obtain ⟨donor, hdonor, h⟩ := Option.bind_eq_some_iff.mp h
  cases h
  exact ⟨(List.findIdx?_eq_some_iff_findIdx_eq.mp howner).1,
    (List.findIdx?_eq_some_iff_findIdx_eq.mp hdonor).1⟩

/-- A record of a sweep is one edge, and a sweep that has not changed anything says so. -/
theorem donate_relax {start : List Int} {sweep : List Int × Bool} {waiter : Record}
    {edge : Nat × Nat} (hedge : donation records tasks waiter = some edge)
    (hlength : sweep.1.length = tasks.length) (hsame : sweep.2 = false → sweep.1 = start) :
    values (donate records tasks sweep waiter).1 = relax (values sweep.1) edge ∧
      (donate records tasks sweep waiter).1.length = tasks.length ∧
      ((donate records tasks sweep waiter).2 = false →
        (donate records tasks sweep waiter).1 = start) := by
  obtain ⟨howner, -⟩ := donation_lt records tasks hedge
  obtain ⟨owner, donor⟩ := edge
  have hdonate : donate records tasks sweep waiter =
      if values sweep.1 owner < values sweep.1 donor then
        (sweep.1.set owner (values sweep.1 donor), true)
      else sweep := by
    unfold donate
    rw [hedge]
    rfl
  unfold relax
  rw [hdonate]
  by_cases hlt : values sweep.1 owner < values sweep.1 donor
  · rw [if_pos hlt, if_pos hlt]
    refine ⟨?_, by rw [List.length_set, hlength], nofun⟩
    funext i
    unfold values
    rw [List.getD_eq_getElem?_getD]
    by_cases hi : i = owner
    · subst hi
      rw [Function.update_self, List.getElem?_set_self (hlength ▸ howner)]
      rfl
    · rw [Function.update_of_ne hi, List.getElem?_set_ne (fun heq => hi heq.symm),
        ← List.getD_eq_getElem?_getD]
  · rw [if_neg hlt, if_neg hlt]
    exact ⟨rfl, hlength, hsame⟩

theorem foldl_donate {start : List Int} (rows : List Record) (sweep : List Int × Bool)
    (hlength : sweep.1.length = tasks.length) (hsame : sweep.2 = false → sweep.1 = start) :
    values (rows.foldl (donate records tasks) sweep).1 =
        Library.Propagation.sweep (rows.filterMap (donation records tasks)) (values sweep.1) ∧
      (rows.foldl (donate records tasks) sweep).1.length = tasks.length ∧
      ((rows.foldl (donate records tasks) sweep).2 = false →
        (rows.foldl (donate records tasks) sweep).1 = start) := by
  induction rows generalizing sweep with
  | nil => exact ⟨rfl, hlength, hsame⟩
  | cons waiter rows ih =>
    cases hedge : donation records tasks waiter with
    | none =>
      have hskip : donate records tasks sweep waiter = sweep := by
        unfold donate
        rw [hedge]
      rw [List.foldl_cons, hskip, List.filterMap_cons_none hedge]
      exact ih sweep hlength hsame
    | some edge =>
      obtain ⟨hvalues, hlength', hsame'⟩ := donate_relax records tasks hedge hlength hsame
      rw [List.foldl_cons, List.filterMap_cons_some hedge]
      obtain ⟨hrest, hdone⟩ := ih _ hlength' hsame'
      refine ⟨?_, hdone⟩
      rw [hrest, hvalues]
      rfl

theorem propagate_values (turns : Nat) {effective : List Int}
    (hlength : effective.length = tasks.length) :
    values (propagate dead records tasks turns effective) =
        (Library.Propagation.sweep (edges dead records tasks))^[turns] (values effective) ∧
      (propagate dead records tasks turns effective).length = tasks.length := by
  induction turns generalizing effective with
  | zero => exact ⟨rfl, hlength⟩
  | succ turns ih =>
    obtain ⟨hvalues, hlength', hsame⟩ := foldl_donate records tasks (waiters dead records)
      (effective, false) hlength (fun _ => rfl)
    rw [Function.iterate_succ_apply]
    unfold propagate
    dsimp only
    split
    · obtain ⟨hrest, hlast⟩ := ih hlength'
      refine ⟨?_, hlast⟩
      rw [hrest, hvalues]
      rfl
    rename_i hchanged
    -- what one sweep leaves alone every sweep leaves alone
    have hfixed : Library.Propagation.sweep (edges dead records tasks) (values effective) =
        values effective := by
      rw [hsame (by simpa using hchanged)] at hvalues
      exact hvalues.symm
    rw [hsame (by simpa using hchanged), hfixed, Function.iterate_fixed hfixed]
    exact ⟨rfl, hlength⟩

/-- Task `donor` waits, by a live record, for a live PI futex that task `owner` owns. -/
def Blocked (donor owner : Nat) : Prop :=
  ∃ waiter ∈ records, waiter.piWait = true ∧ dead waiter = false ∧
    ∃ state, liveState records waiter.key = some state ∧ state.token ≠ waiter.token ∧
      tasks.findIdx? (fun task => task.identity = Identity.of state) = some owner ∧
      tasks.findIdx? (fun task => task.identity = Identity.of waiter) = some donor

theorem raises_iff (donor owner : Nat) :
    Raises (edges dead records tasks) donor owner ↔ Blocked dead records tasks donor owner := by
  unfold Raises edges waiters Blocked
  simp only [List.mem_filterMap, List.mem_filter, Bool.and_eq_true, Bool.not_eq_true', and_assoc]
  constructor
  · rintro ⟨waiter, hmem, hwait, hlive, hedge⟩
    refine ⟨waiter, hmem, hwait, hlive, ?_⟩
    unfold donation at hedge
    obtain ⟨state, hstate, hedge⟩ := Option.bind_eq_some_iff.mp hedge
    split at hedge
    · cases hedge
    rename_i htoken
    obtain ⟨owner', howner, hedge⟩ := Option.bind_eq_some_iff.mp hedge
    obtain ⟨donor', hdonor, hedge⟩ := Option.bind_eq_some_iff.mp hedge
    cases hedge
    exact ⟨state, hstate, htoken, howner, hdonor⟩
  · rintro ⟨waiter, hmem, hwait, hlive, state, hstate, htoken, howner, hdonor⟩
    refine ⟨waiter, hmem, hwait, hlive, ?_⟩
    unfold donation
    simp only [hstate, Option.bind_eq_bind, Option.bind_some, if_neg htoken, howner, hdonor]
    rfl

theorem effective_isGreatest {i : Nat} (hi : i < tasks.length) :
    IsGreatest {value | ∃ j donor, tasks[j]? = some donor ∧
        ReflTransGen (Blocked dead records tasks) j i ∧ donor.absolute donor.base = value}
      (values (effective dead records tasks) i) := by
  have hnodes : ∀ edge ∈ edges dead records tasks,
      edge.1 ∈ Finset.range tasks.length ∧ edge.2 ∈ Finset.range tasks.length := by
    intro edge hedge
    obtain ⟨waiter, -, hdonation⟩ := List.mem_filterMap.mp hedge
    obtain ⟨howner, hdonor⟩ := donation_lt records tasks hdonation
    exact ⟨Finset.mem_range.mpr howner, Finset.mem_range.mpr hdonor⟩
  have hraises : Raises (edges dead records tasks) = Blocked dead records tasks := by
    funext donor owner
    exact propext (raises_iff dead records tasks donor owner)
  have hgreatest := sweeps_isGreatest hnodes
    (values (tasks.map fun task => task.absolute task.base))
    (le_of_eq (Finset.card_range tasks.length)) (Finset.mem_range.mpr hi)
  rw [← (propagate_values dead records tasks tasks.length (by rw [List.length_map])).1, hraises]
    at hgreatest
  have hset : {value | ∃ source, ReflTransGen (Blocked dead records tasks) source i ∧
      values (tasks.map fun task => task.absolute task.base) source = value} =
      {value | ∃ j donor, tasks[j]? = some donor ∧
        ReflTransGen (Blocked dead records tasks) j i ∧ donor.absolute donor.base = value} := by
    ext value
    constructor
    · rintro ⟨j, hleads, rfl⟩
      have hj : j < tasks.length := by
        rcases hleads.cases_head with heq | ⟨next, hblocked, -⟩
        · exact heq ▸ hi
        · obtain ⟨waiter, -, -, -, state, -, -, -, hdonor⟩ := hblocked
          exact (List.findIdx?_eq_some_iff_findIdx_eq.mp hdonor).1
      refine ⟨j, tasks[j], List.getElem?_eq_getElem hj, hleads, ?_⟩
      simp [values, hj]
    · rintro ⟨j, donor, hdonor, hleads, rfl⟩
      refine ⟨j, hleads, ?_⟩
      simp [values, hdonor]
  rw [hset] at hgreatest
  exact hgreatest

end Values

/-! ## The levels -/

theorem minByKey_spec {α : Type} (key : α → Int) (l : List α) : (l = [] ∧ minByKey key l = none) ∨
      ∃ x ∈ l, minByKey key l = some x ∧ ∀ y ∈ l, key x ≤ key y := by
  induction l with
  | nil => exact .inl ⟨rfl, rfl⟩
  | cons a rest ih =>
    right
    unfold minByKey
    rcases ih with ⟨rfl, hnone⟩ | ⟨x, hx, hsome, hleast⟩
    · rw [hnone]
      refine ⟨a, by simp, rfl, ?_⟩
      intro y hy
      rw [List.mem_singleton.mp hy]
    rw [hsome]
    dsimp only
    split
    · rename_i hle
      refine ⟨a, by simp, rfl, ?_⟩
      intro y hy
      rcases List.mem_cons.mp hy with rfl | hy
      · exact le_refl _
      · exact le_trans hle (hleast y hy)
    · rename_i hlt
      refine ⟨x, List.mem_cons_of_mem _ hx, rfl, ?_⟩
      intro y hy
      rcases List.mem_cons.mp hy with rfl | hy
      · omega
      · exact hleast y hy

/-- A level of the task that reaches `floor` and the task's own base. -/
def Task.Reaches (task : Task) (floor level : Int) : Prop :=
  level ∈ LEVELS ∧ floor ≤ task.absolute level ∧ task.absolute task.base ≤ task.absolute level

/-- The applied level is the least of those that reach `floor`, or time critical when none
does. -/
theorem relative_spec (task : Task) (floor : Int) :
    (task.Reaches floor (task.relative floor) ∧ ∀ level, task.Reaches floor level →
      task.absolute (task.relative floor) ≤ task.absolute level) ∨
    (task.relative floor = 15 ∧ ∀ level, ¬task.Reaches floor level) := by
  have hmem : ∀ level, level ∈ LEVELS.filter (fun level =>
      task.absolute level ≥ floor && task.absolute level ≥ task.absolute task.base) ↔
      task.Reaches floor level := by
    intro level
    simp [Task.Reaches]
  unfold Task.relative
  rcases minByKey_spec task.absolute (LEVELS.filter fun level =>
    task.absolute level ≥ floor && task.absolute level ≥ task.absolute task.base) with
    ⟨hnil, hnone⟩ | ⟨level, hlevel, hsome, hleast⟩
  · right
    rw [hnone]
    refine ⟨rfl, fun level hlevel => ?_⟩
    have hin := (hmem level).mpr hlevel
    rw [hnil] at hin
    cases hin
  · left
    rw [hsome]
    exact ⟨(hmem level).mp hlevel, fun other hother => hleast other ((hmem other).mpr hother)⟩

/-- The priority classes and base priorities that the host has. -/
def Task.Native (task : Task) : Prop :=
  task.priorityClass ∈ [4, 6, 8, 10, 13, 24] ∧
    (task.base ∈ LEVELS ∨ task.priorityClass = 24 ∧ -7 ≤ task.base ∧ task.base ≤ 6)

variable {task : Task}

theorem Task.Native.base_le (h : task.Native) : task.absolute task.base ≤ task.absolute 15 := by
  obtain ⟨hclass, hbase⟩ := h
  simp only [List.mem_cons, List.not_mem_nil, or_false] at hclass
  unfold Task.absolute
  simp only [LEVELS, List.mem_cons, List.not_mem_nil, or_false] at hbase
  split
  · split <;> omega
  split
  · simp
  · simp only [show (15 : Int) ≠ -15 by decide, if_false, if_true]
    split <;> omega

theorem Task.Native.base_le_relative (h : task.Native) (floor : Int) :
    task.absolute task.base ≤ task.absolute (task.relative floor) := by
  rcases relative_spec task floor with ⟨hreaches, -⟩ | ⟨hcritical, -⟩
  · exact hreaches.2.2
  · rw [hcritical]
    exact h.base_le

/-! ## The circles -/

section Circles

variable (records : List Record)

/-- The thread at the end of so many waits. -/
def follow : Nat → Identity → Option Identity
  | 0, owner => some owner
  | turns + 1, owner => (nextOwner records owner).bind (follow turns)

theorem follow_succ (turns : Nat) (owner : Identity) :
    follow records (turns + 1) owner = (nextOwner records owner).bind (follow records turns) := rfl

theorem follow_add (i j : Nat) (owner : Identity) :
    follow records (i + j) owner = (follow records i owner).bind (follow records j) := by
  induction i generalizing owner with
  | zero =>
    rw [Nat.zero_add]
    rfl
  | succ i ih =>
    rw [Nat.add_right_comm, follow_succ, follow_succ]
    cases nextOwner records owner with
    | none => rfl
    | some owner => exact ih owner

variable {owner : Identity}

theorem follow_isSome_of_le {i j : Nat} (hij : i ≤ j)
    (h : (follow records j owner).isSome = true) : (follow records i owner).isSome = true := by
  have hsum : j = i + (j - i) := by omega
  rw [hsum, follow_add] at h
  cases hi : follow records i owner with
  | none =>
    rw [hi] at h
    cases h
  | some owner => rfl

theorem cycleFrom_iff (waiting : Identity) (turns : Nat) (owner : Identity) :
    cycleFrom records waiting turns owner = true ↔
      (∃ k, k < turns ∧ follow records k owner = some waiting) ∨
        (follow records turns owner).isSome = true := by
  induction turns generalizing owner with
  | zero => simp [cycleFrom, follow]
  | succ turns ih =>
    unfold cycleFrom
    by_cases hsame : owner = waiting
    · rw [if_pos hsame]
      refine ⟨fun _ => .inl ⟨0, Nat.succ_pos _, ?_⟩, fun _ => rfl⟩
      rw [hsame]
      rfl
    rw [if_neg hsame]
    have hzero : follow records 0 owner ≠ some waiting := fun heq => hsame (Option.some.inj heq)
    cases hnext : nextOwner records owner with
    | none =>
      have hnone : ∀ k, follow records (k + 1) owner = none := by
        intro k
        unfold follow
        rw [hnext]
        rfl
      refine ⟨nofun, ?_⟩
      rintro (⟨k, -, hk⟩ | hsome)
      · cases k with
        | zero => exact absurd hk hzero
        | succ k =>
          rw [hnone] at hk
          cases hk
      · rw [hnone] at hsome
        cases hsome
    | some next =>
      have hshift : ∀ k, follow records (k + 1) owner = follow records k next := by
        intro k
        rw [follow, hnext]
        rfl
      dsimp only
      rw [ih, hshift]
      apply or_congr_left
      constructor
      · rintro ⟨k, hk, hfollow⟩
        exact ⟨k + 1, by omega, (hshift k).trans hfollow⟩
      · rintro ⟨k, hk, hfollow⟩
        cases k with
        | zero => exact absurd hfollow hzero
        | succ k => exact ⟨k, by omega, (hshift k).symm.trans hfollow⟩

/-- The waits come back to a thread that they have been at. -/
def Loops (owner : Identity) : Prop :=
  ∃ i j, i < j ∧ follow records i owner = follow records j owner ∧
    (follow records i owner).isSome = true

theorem Loops.isSome (h : Loops records owner) (k : Nat) :
    (follow records k owner).isSome = true := by
  obtain ⟨i, j, hij, hsame, hsome⟩ := h
  induction k using Nat.strongRecOn with
  | _ k ih =>
  by_cases hk : k ≤ j
  · exact follow_isSome_of_le records hk (hsame ▸ hsome)
  -- past the loop it is as one round before
  have hsum : k = j + (k - j) := by omega
  have hback : follow records k owner = follow records (i + (k - j)) owner := by
    rw [hsum, follow_add, ← hsame, ← follow_add]
    congr 1
    omega
  rw [hback]
  exact ih _ (by omega)

/-- The record by which a thread waits. -/
def waitsAs (thread : Identity) (record : Record) : Bool :=
  record.piWait && Identity.of record = thread

theorem findIdx_of_nextOwner {thread : Identity} (h : nextOwner records thread ≠ none) :
    ∃ row, records.findIdx? (waitsAs thread) = some row := by
  apply Option.isSome_iff_exists.mp
  rw [List.findIdx?_isSome, List.any_eq_true]
  cases hfind : records.find? (waitsAs thread) with
  | none =>
    exfalso
    apply h
    unfold nextOwner
    unfold waitsAs at hfind
    rw [hfind]
    rfl
  | some record => exact ⟨record, List.mem_of_find?_eq_some hfind, List.find?_some hfind⟩

theorem waitsAs_unique {thread thread' : Identity} {row : Nat}
    (h : records.findIdx? (waitsAs thread) = some row)
    (h' : records.findIdx? (waitsAs thread') = some row) : thread = thread' := by
  obtain ⟨hrow, hwaits, -⟩ := List.findIdx?_eq_some_iff_getElem.mp h
  obtain ⟨hrow', hwaits', -⟩ := List.findIdx?_eq_some_iff_getElem.mp h'
  simp only [waitsAs, Bool.and_eq_true, decide_eq_true_eq] at hwaits hwaits'
  exact hwaits.2.symm.trans hwaits'.2

theorem loops_of_isSome
    (h : (follow records (records.length + 1) owner).isSome = true) : Loops records owner := by
  have hthread : ∀ k, k < records.length + 1 → ∃ thread row, follow records k owner = some thread ∧
      records.findIdx? (waitsAs thread) = some row := by
    intro k hk
    have hnext := follow_isSome_of_le records (Nat.succ_le_of_lt hk) h
    obtain ⟨thread, hthread⟩ := Option.isSome_iff_exists.mp
      (follow_isSome_of_le records (Nat.le_succ k) hnext)
    rw [Nat.succ_eq_add_one, follow_add, hthread, Option.bind_some, follow_succ] at hnext
    obtain ⟨row, hrow⟩ := findIdx_of_nextOwner records (fun hnone => by
      rw [hnone] at hnext
      cases hnext)
    exact ⟨thread, row, hthread, hrow⟩
  -- a record for each of the threads, and one thread more than records
  have hin : ∀ k ∈ Finset.range (records.length + 1),
      ((follow records k owner).bind fun thread => records.findIdx? (waitsAs thread)).getD 0 ∈
        Finset.range records.length := by
    intro k hk
    obtain ⟨thread, row, hthread, hrow⟩ := hthread k (Finset.mem_range.mp hk)
    rw [hthread, Option.bind_some, hrow, Option.getD_some, Finset.mem_range]
    exact (List.findIdx?_eq_some_iff_findIdx_eq.mp hrow).1
  obtain ⟨i, hi, j, hj, hne, hsame⟩ := Finset.exists_ne_map_eq_of_card_lt_of_maps_to
    (by rw [Finset.card_range, Finset.card_range]; omega) hin
  obtain ⟨thread, row, hthreadi, hrowi⟩ := hthread i (Finset.mem_range.mp hi)
  obtain ⟨thread', row', hthreadj, hrowj⟩ := hthread j (Finset.mem_range.mp hj)
  rw [hthreadi, hthreadj, Option.bind_some, Option.bind_some, hrowi, hrowj] at hsame
  cases hsame
  have hequal : thread = thread' := waitsAs_unique records hrowi hrowj
  subst hequal
  rcases Nat.lt_or_gt_of_ne hne with hlt | hlt
  · exact ⟨i, j, hlt, hthreadi.trans hthreadj.symm, by rw [hthreadi]; rfl⟩
  · exact ⟨j, i, hlt, hthreadj.trans hthreadi.symm, by rw [hthreadj]; rfl⟩

theorem cycle_iff (waiting owner : Identity) : cycle records waiting owner = true ↔
      (∃ k, follow records k owner = some waiting) ∨ Loops records owner := by
  unfold cycle
  rw [cycleFrom_iff]
  constructor
  · rintro (⟨k, -, hk⟩ | hsome)
    · exact .inl ⟨k, hk⟩
    · exact .inr (loops_of_isSome records hsome)
  · rintro (⟨k, hk⟩ | hloops)
    · by_cases hlt : k < records.length + 1
      · exact .inl ⟨k, hlt, hk⟩
      · have hle : records.length + 1 ≤ k := Nat.le_of_not_lt hlt
        exact .inr (follow_isSome_of_le records hle (by rw [hk]; rfl))
    · exact .inr (hloops.isSome records _)

end Circles

/-! ## The law -/

/-- What a task gets from the value that is lent to it. -/
structure Lent (records : List Record) (tasks : List Task) (i : Nat) (task : Task)
    (floor level : Int) : Prop where
  greatest : IsGreatest {value | ∃ j donor, tasks[j]? = some donor ∧
    ReflTransGen (Blocked dead records tasks) j i ∧ donor.absolute donor.base = value} floor
  fits : (task.Reaches floor level ∧
      ∀ other, task.Reaches floor other → task.absolute level ≤ task.absolute other) ∨
    (level = 15 ∧ ∀ other, ¬task.Reaches floor other)
  base : task.Native → task.absolute task.base ≤ task.absolute level

theorem priorities_getElem? (records : List Record) (tasks : List Task) {i : Nat}
    (h : tasks[i]? = some task) : (priorities dead records tasks)[i]? =
      some { task with applied := task.relative (values (effective dead records tasks) i) } := by
  have hi : i < tasks.length := (List.getElem?_eq_some_iff.mp h).1
  have hlength : (effective dead records tasks).length = tasks.length :=
    (propagate_values dead records tasks tasks.length (by rw [List.length_map])).2
  have hfloor : (effective dead records tasks)[i]? =
      some (values (effective dead records tasks) i) := by
    unfold values
    rw [List.getD_eq_getElem?_getD, List.getElem?_eq_getElem (hlength ▸ hi)]
    rfl
  unfold priorities
  rw [List.getElem?_zipWith, h, hfloor]

/-- Every task keeps its row and gets the level of the greatest base that is lent to it, its
own included, over any chain of waits; and `cycle` tells whether a chain of owners comes to
the waiting thread or goes round. -/
theorem donation_exact (records : List Record) (tasks : List Task) :
    (∀ i task, tasks[i]? = some task → ∃ floor level,
      (priorities dead records tasks)[i]? = some { task with applied := level } ∧
        Lent dead records tasks i task floor level) ∧
      ∀ waiting owner, cycle records waiting owner = true ↔
        (∃ k, follow records k owner = some waiting) ∨ Loops records owner := by
  refine ⟨fun i task htask => ?_, cycle_iff records⟩
  have hi : i < tasks.length := (List.getElem?_eq_some_iff.mp htask).1
  exact ⟨_, _, priorities_getElem? dead records tasks htask,
    effective_isGreatest dead records tasks hi, relative_spec task _,
    fun hnative => hnative.base_le_relative _⟩

def piKey : Key := .replicate 5 0

def piTask (thread : BitVec 32) (priorityClass base : Int) : Task :=
  ⟨⟨0, 1, thread⟩, 1, thread, base, base, priorityClass⟩

/-- Thread 1 owns the futex, and thread 2 waits for it. -/
def piRecords : List Record :=
  [⟨piKey, 1, 0, 1, 1, 1, STATE⟩, ⟨piKey, 2, 0, 1, 2, 2, WAIT⟩]

/-- A task of a higher class lifts the owner to its own priority. -/
theorem donation_exact_lifts : ∃ floor level,
    (priorities (fun _ => false) piRecords [piTask 1 8 0, piTask 2 10 0])[0]? =
        some { piTask 1 8 0 with applied := level } ∧
      Lent (fun _ => false) piRecords [piTask 1 8 0, piTask 2 10 0] 0 (piTask 1 8 0) floor level :=
  (donation_exact (fun _ => false) piRecords [piTask 1 8 0, piTask 2 10 0]).1 0 (piTask 1 8 0) rfl

/-- A real-time donor lifts the owner to time critical, which is far below it. -/
theorem donation_realtime_below :
    Blocked (fun _ => false) piRecords [piTask 1 8 0, piTask 2 24 0] 1 0 ∧
      (piTask 2 24 0).absolute (piTask 2 24 0).base = 24 ∧
      (priorities (fun _ => false) piRecords [piTask 1 8 0, piTask 2 24 0])[0]? =
        some { piTask 1 8 0 with applied := 15 } ∧
      (piTask 1 8 0).absolute 15 = 15 := by
  refine ⟨⟨_, List.mem_cons_of_mem _ List.mem_cons_self, by decide, rfl, _, rfl, by decide, by decide,
    by decide⟩, by decide, by decide, by decide⟩

end Kinakaze.Futex.Pi
