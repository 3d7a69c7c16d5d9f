import Kinakaze.Fork.Sparse
import Mathlib.Data.List.Sort

/-!
# Copying what was written

A region that began as zeros is copied by the list of the pages written since, as the system
reports it: in any order, and some of them more than once.
-/

namespace Kinakaze.Fork

open Kinakaze.Library

structure Plan where
  base : Nat
  len : Nat
  pages : List Nat
  used : Option Nat

/-- What `GetWriteWatch` answers for a buffer of `capacity` entries. -/
structure WriteWatch (capacity : Nat) where
  status : BitVec 32
  count : Nat
  granularity : BitVec 32
  buffer : List Nat
  sized : buffer.length = capacity

/-- The addresses it reports. -/
def WriteWatch.history {capacity : Nat} (watch : WriteWatch capacity) : List Nat :=
  watch.buffer.take watch.count

/-- `Plan::capture`: whether the plan can be used, and the plan. -/
def Plan.capture (plan : Plan) (watch : WriteWatch plan.pages.length) : Bool × Plan :=
  if watch.status ≠ 0 ∨ watch.granularity.toNat ≠ PAGE ∨ watch.count > watch.buffer.length then
    (false, { plan with pages := watch.buffer, used := none })
  else
    let finish := plan.base + plan.len
    let pages := watch.buffer.take watch.count
    if pages.any fun address =>
        decide (address < plan.base) || decide (address ≥ finish) || decide (address % PAGE ≠ 0) then
      (false, { plan with pages := watch.buffer, used := none })
    else
      (true, { plan with
        pages := pages.mergeSort ++ watch.buffer.drop watch.count, used := some watch.count })

/-- Where the entries that satisfy `pred` end, in a slice that has them first. -/
def partitionPoint (pred : Nat → Bool) (pages : List Nat) : Nat := (pages.takeWhile pred).length

section Copy

variable {σ ε : Type}

def planLoop (copy : Nat → Nat → σ → Except ε Unit × σ) :
    List Nat → Option (Nat × Nat) → Nat × Nat → σ → Option (Except ε (Nat × Nat) × σ)
  | [], run, (copied, calls), s =>
    match run with
    | some (start, limit) =>
      handOver copy start (limit - start) s fun s' =>
        some (.ok (copied + (limit - start), calls + 1), s')
    | none => some (.ok (copied, calls), s)
  | page :: rest, run, (copied, calls), s =>
    match run with
    | some (start, limit) =>
      if page ≤ limit then
        planLoop copy rest (some (start, max limit (page + PAGE))) (copied, calls) s
      else
        handOver copy start (limit - start) s fun s' =>
          planLoop copy rest (some (page, page + PAGE)) (copied + (limit - start), calls + 1) s'
    | none => planLoop copy rest (some (page, page + PAGE)) (copied, calls) s

/-- `Plan::copy`; `none` is a panic. -/
def Plan.copy (plan : Plan) (base len : Nat) (copy : Nat → Nat → σ → Except ε Unit × σ) (s : σ) :
    Option (Except ε (Nat × Nat) × σ) :=
  match plan.used with
  | none => none
  | some used =>
    let pages := plan.pages.take used
    let finish := base + len
    let first := partitionPoint (· < base) pages
    let last := partitionPoint (· < finish) pages
    planLoop copy ((pages.take last).drop first) none (0, 0) s

/-- The loop of `fork` over the runs of a mapping, each as long as the entry says. -/
def Plan.copyRuns (plan : Plan) (copy : Nat → Nat → σ → Except ε Unit × σ) :
    Nat → List Nat → Nat × Nat → σ → Option (Except ε (Nat × Nat) × σ)
  | _, [], counts, s => some (.ok counts, s)
  | cursor, len :: rest, counts, s =>
    match plan.copy cursor len copy s with
    | none => none
    | some (.error e, s') => some (.error e, s')
    | some (.ok (copied, calls), s') =>
      plan.copyRuns copy (cursor + len) rest (counts.1 + copied, counts.2 + calls) s'

end Copy

/-! ## The pages of a run -/

variable {base len : Nat}

theorem slice_eq_filter {pages : List Nat} (h : pages.Pairwise (· ≤ ·)) {finish : Nat}
    (hle : base ≤ finish) :
    (pages.take (partitionPoint (· < finish) pages)).drop (partitionPoint (· < base) pages) =
      pages.filter fun page => decide (base ≤ page) && decide (page < finish) := by
  unfold partitionPoint
  induction pages with
  | nil => rfl
  | cons page rest ih =>
    obtain ⟨hpage, hrest⟩ := List.pairwise_cons.mp h
    rcases Nat.lt_or_ge page base with hlow | hlow
    · rw [List.takeWhile_cons_of_pos (by simpa using hlow),
        List.takeWhile_cons_of_pos (by simpa using Nat.lt_of_lt_of_le hlow hle), List.length_cons, List.length_cons,
        List.take_succ_cons, List.drop_succ_cons, ih hrest,
        List.filter_cons_of_neg (by simp; omega)]
    have hnone : rest.takeWhile (· < base) = [] := by
      cases rest with
      | nil => rfl
      | cons next rest =>
        have hnext := hpage next List.mem_cons_self
        exact List.takeWhile_cons_of_neg (by simp; omega)
    have hfirst : (page :: rest).takeWhile (· < base) = [] :=
      List.takeWhile_cons_of_neg (by simpa using hlow)
    have hrun := ih hrest
    rw [hnone, List.length_nil, List.drop_zero] at hrun
    rw [hfirst, List.length_nil, List.drop_zero]
    rcases Nat.lt_or_ge page finish with hhigh | hhigh
    · rw [List.takeWhile_cons_of_pos (by simpa using hhigh), List.length_cons, List.take_succ_cons,
        hrun, List.filter_cons_of_pos (by simp; omega)]
    rw [List.takeWhile_cons_of_neg (by simpa using hhigh), List.length_nil, List.take_zero]
    refine (List.filter_eq_nil_iff.mpr fun later hlater => ?_).symm
    have hge : page ≤ later := by
      rcases List.mem_cons.mp hlater with rfl | hmem
      · exact Nat.le_refl _
      · exact hpage later hmem
    simp
    omega

variable {f : Nat → Byte}

theorem planLoop_spans {high : Nat} (pages : List Nat) (run : Option (Nat × Nat)) (offset : Nat)
    (hsorted : pages.Pairwise (· ≤ ·)) (hhigh : ∀ page ∈ pages, page + PAGE ≤ high)
    (hoffset : offset ≤ high) (hrun : ∀ start limit, run = some (start, limit) →
      start < limit ∧ limit = offset) (hlow : run = none → ∀ page ∈ pages, offset ≤ page)
    (hnext : ∀ page ∈ pages, offset ≤ page + PAGE)
    (hcover : ∀ place, offset ≤ place → place < high → f place ≠ 0 →
      ∃ page ∈ pages, page ≤ place ∧ place < page + PAGE) :
    ∃ spans, SpansFrom (f · ≠ 0) offset high run spans ∧
      ∀ {σ ε : Type} (copy : Nat → Nat → σ → Except ε Unit × σ) (counts : Nat × Nat) (s : σ),
        planLoop copy pages run counts s = some (performs copy spans counts s) := by
  have hrunTo : RunTo (f · ≠ 0) offset run := by
    intro start limit hsome
    obtain ⟨hstart, rfl⟩ := hrun start limit hsome
    exact ⟨hstart, Nat.le_refl _, fun place hge hlt => absurd hlt (Nat.not_lt.mpr hge)⟩
  induction pages generalizing run offset with
  | nil =>
    have hnone : ∀ place, offset ≤ place → place < high → ¬ f place ≠ 0 := fun place hge hlt hne =>
      match hcover place hge hlt hne with
      | ⟨_, hpage, _⟩ => absurd hpage List.not_mem_nil
    cases run with
    | none => exact ⟨[], .nil hnone, fun copy counts s => rfl⟩
    | some run =>
      obtain ⟨start, limit⟩ := run
      refine ⟨[(start, limit - start)], SpansFrom.close hrunTo hoffset (Nat.le_refl _) hnone
        (.nil fun place hge hlt => absurd hlt (Nat.not_lt.mpr hge)), fun copy counts s => ?_⟩
      exact @handOver_performs _ _ _ _ _ [] _ _ (fun s' => rfl) s
  | cons page rest ih =>
    obtain ⟨hpage, hrest⟩ := List.pairwise_cons.mp hsorted
    obtain ⟨hpageHigh, hrestHigh⟩ := List.forall_mem_cons.mp hhigh
    -- what is needed lies in no page before this one
    have hbefore : ∀ place, offset ≤ place → place < page → ¬ f place ≠ 0 := by
      intro place hge hlt hne
      obtain ⟨p, hp, hpl, -⟩ := hcover place hge (by omega) hne
      rcases List.mem_cons.mp hp with rfl | hmem
      · omega
      · have hle := hpage p hmem
        omega
    have hafter : ∀ place, page + PAGE ≤ place → place < high → f place ≠ 0 → offset ≤ place →
        ∃ p ∈ rest, p ≤ place ∧ place < p + PAGE := by
      intro place hge hlt hne hplace
      obtain ⟨p, hp, hpl, hend⟩ := hcover place hplace hlt hne
      rcases List.mem_cons.mp hp with rfl | hmem
      · omega
      · exact ⟨p, hmem, hpl, hend⟩
    have hpageNext := hnext page List.mem_cons_self
    have hrestNext : ∀ p ∈ rest, page + PAGE ≤ p + PAGE :=
      fun p hp => Nat.add_le_add_right (hpage p hp) _
    have hfollow := fun start (hstart : start < page + PAGE) =>
      ih (some (start, page + PAGE)) (page + PAGE) hrest hrestHigh hpageHigh (fun _ _ hsame => by
          obtain ⟨rfl, rfl⟩ := Prod.mk.inj (Option.some.inj hsame)
          exact ⟨hstart, rfl⟩)
        (fun hnone => (nomatch hnone)) hrestNext
        (fun place hge hlt hne => hafter place hge hlt hne (Nat.le_trans hpageNext hge))
        (fun _ _ hsame => by
          obtain ⟨rfl, rfl⟩ := Prod.mk.inj (Option.some.inj hsame)
          exact ⟨hstart, Nat.le_refl _, fun place hge hlt => absurd hlt (Nat.not_lt.mpr hge)⟩)
    have hpos : page < page + PAGE := Nat.lt_add_of_pos_right (by decide)
    cases run with
    | none =>
      obtain ⟨spans, hspans, hcopy⟩ := hfollow page hpos
      exact ⟨spans, SpansFrom.opened hspans (hlow rfl page List.mem_cons_self) hbefore,
        fun copy counts s => hcopy copy counts s⟩
    | some run =>
      obtain ⟨start, limit⟩ := run
      obtain ⟨hstart, rfl⟩ := hrun start limit rfl
      by_cases hnear : page ≤ limit
      · obtain ⟨spans, hspans, hcopy⟩ := hfollow start (by omega)
        refine ⟨spans, SpansFrom.extend hspans hpageNext, fun copy counts s => ?_⟩
        unfold planLoop
        dsimp only
        rw [if_pos hnear, Nat.max_eq_right hpageNext]
        exact hcopy copy counts s
      · obtain ⟨spans, hspans, hcopy⟩ := hfollow page hpos
        refine ⟨(start, limit - start) :: spans, SpansFrom.close hrunTo (by omega) (by omega)
          hbefore (SpansFrom.opened hspans (Nat.le_refl _) fun place hge hlt => by omega),
          fun copy counts s => ?_⟩
        unfold planLoop
        dsimp only
        rw [if_neg hnear]
        exact handOver_performs (fun s' => hcopy copy _ s') s

/-! ## A captured plan -/

/-- The history is readable: the pages reported are pages of the region. -/
structure WriteWatch.Readable (plan : Plan) (watch : WriteWatch plan.pages.length) : Prop where
  status : watch.status = 0
  granularity : watch.granularity.toNat = PAGE
  count : watch.count ≤ plan.pages.length
  pages : ∀ page ∈ watch.history, plan.base ≤ page ∧ page < plan.base + plan.len ∧ page % PAGE = 0

variable {plan : Plan} {watch : WriteWatch plan.pages.length}

theorem capture_eq (h : watch.Readable plan) :
    plan.capture watch = (true, { plan with
      pages := watch.history.mergeSort ++ watch.buffer.drop watch.count,
      used := some watch.count }) := by
  have hcount := h.count
  have hanswer : ¬ (watch.status ≠ 0 ∨ watch.granularity.toNat ≠ PAGE ∨
      watch.count > watch.buffer.length) := by
    rw [watch.sized]
    exact not_or.mpr ⟨not_not.mpr h.status, not_or.mpr
      ⟨not_not.mpr h.granularity, Nat.not_lt.mpr hcount⟩⟩
  unfold Plan.capture
  rw [if_neg hanswer]
  refine if_neg ?_
  simp only [List.any_eq_true, not_exists, not_and, Bool.or_eq_true, decide_eq_true_eq]
  intro page hpage
  have hin := h.pages page hpage
  omega

theorem capture_iff (plan : Plan) (watch : WriteWatch plan.pages.length) :
    (plan.capture watch).1 = true ↔ watch.Readable plan := by
  constructor
  · intro h
    unfold Plan.capture at h
    by_cases hanswer : watch.status ≠ 0 ∨ watch.granularity.toNat ≠ PAGE ∨
        watch.count > watch.buffer.length
    · rw [if_pos hanswer] at h
      exact absurd h Bool.false_ne_true
    rw [if_neg hanswer] at h
    obtain ⟨hstatus, hrest⟩ := not_or.mp hanswer
    obtain ⟨hgranularity, hcount⟩ := not_or.mp hrest
    rw [watch.sized] at hcount
    refine ⟨not_not.mp hstatus, not_not.mp hgranularity, Nat.le_of_not_lt hcount, fun page hpage => ?_⟩
    by_contra hbad
    have hany : (watch.buffer.take watch.count).any (fun address => decide (address < plan.base) ||
        decide (address ≥ plan.base + plan.len) || decide (address % PAGE ≠ 0)) = true := by
      refine List.any_eq_true.mpr ⟨page, hpage, ?_⟩
      simp only [Bool.or_eq_true, decide_eq_true_eq]
      omega
    dsimp only at h
    rw [if_pos hany] at h
    exact absurd h Bool.false_ne_true
  · intro h
    rw [capture_eq h]

theorem capture_pages (h : watch.Readable plan) : ∃ used, (plan.capture watch).2.used = some used ∧
      ((plan.capture watch).2.pages.take used).Pairwise (· ≤ ·) ∧
      ((plan.capture watch).2.pages.take used).Perm watch.history := by
  have hlength : watch.history.mergeSort.length = watch.count := by
    unfold WriteWatch.history
    rw [List.length_mergeSort, List.length_take, watch.sized]
    exact Nat.min_eq_left h.count
  rw [capture_eq h]
  refine ⟨watch.count, rfl, ?_, ?_⟩
  · dsimp only
    rw [List.take_left' hlength]
    exact List.pairwise_mergeSort' _ _
  · dsimp only
    rw [List.take_left' hlength]
    exact List.mergeSort_perm _ _

/-- Every page with a byte that is not zero is in the history. -/
def WriteWatch.Covers {capacity : Nat} (watch : WriteWatch capacity) (plan : Plan)
    (f : Nat → Byte) : Prop :=
  ∀ place, plan.base ≤ place → place < plan.base + plan.len → f place ≠ 0 →
    place / PAGE * PAGE ∈ watch.history

theorem planCopy_spans (h : watch.Readable plan)
    (hcovers : watch.Covers plan f) (hbase : base % PAGE = 0) (hlen : len % PAGE = 0)
    (hlow : plan.base ≤ base) (hhigh : base + len ≤ plan.base + plan.len) :
    ∃ spans, Spans (f · ≠ 0) base (base + len) spans ∧
      ∀ {σ ε : Type} (copy : Nat → Nat → σ → Except ε Unit × σ) (s : σ),
        (plan.capture watch).2.copy base len copy s = some (performs copy spans (0, 0) s) := by
  obtain ⟨used, hused, hsorted, hperm⟩ := capture_pages h
  have hmem : ∀ page, page ∈ ((plan.capture watch).2.pages.take used).filter
      (fun page => decide (base ≤ page) && decide (page < base + len)) ↔
      page ∈ watch.history ∧ base ≤ page ∧ page < base + len := by
    simp [List.mem_filter, hperm.mem_iff]
  unfold PAGE at hbase hlen
  obtain ⟨spans, hspans, hcopy⟩ := @planLoop_spans f (base + len) _ none base
    (hsorted.filter fun page => decide (base ≤ page) && decide (page < base + len))
    (fun page hpage => by
      obtain ⟨hreported, hin⟩ := (hmem page).mp hpage
      have haligned := (h.pages page hreported).2.2
      unfold PAGE at haligned ⊢
      omega)
    (Nat.le_add_right _ _) (fun _ _ hnone => (nomatch hnone))
    (fun _ page hpage => ((hmem page).mp hpage).2.1)
    (fun page hpage => Nat.le_trans ((hmem page).mp hpage).2.1 (Nat.le_add_right _ _))
    (fun place hge hlt hne => by
      refine ⟨place / PAGE * PAGE, (hmem _).mpr
        ⟨hcovers place (Nat.le_trans hlow hge) (Nat.lt_of_lt_of_le hlt hhigh) hne, ?_⟩, ?_⟩
      all_goals
        unfold PAGE
        omega)
  refine ⟨spans, hspans, fun copy s => ?_⟩
  unfold Plan.copy
  rw [hused]
  dsimp only
  rw [slice_eq_filter hsorted (Nat.le_add_right _ _)]
  exact hcopy copy (0, 0) s

theorem planCopy_copiesAll
    (h : watch.Readable plan) (hcovers : watch.Covers plan f) (hbase : base % PAGE = 0)
    (hlen : len % PAGE = 0) (hlow : plan.base ≤ base) (hhigh : base + len ≤ plan.base + plan.len) :
    ∃ spans, CopiesAll f (fun _ => 0) base (base + len) id
      (fun copy s => (plan.capture watch).2.copy base len copy s) spans := by
  obtain ⟨spans, hspans, hcopy⟩ := planCopy_spans h hcovers hbase hlen hlow hhigh
  refine ⟨spans, copiesAll_of_spans hspans fun copy s => ?_⟩
  rw [hcopy, performs_map_id]

theorem copyRuns_spans (h : watch.Readable plan)
    (hcovers : watch.Covers plan f) (lens : List Nat) (cursor : Nat) (hcursor : cursor % PAGE = 0)
    (hlens : ∀ len ∈ lens, len % PAGE = 0) (hlow : plan.base ≤ cursor)
    (hhigh : cursor + lens.sum ≤ plan.base + plan.len) :
    ∃ spans, Spans (f · ≠ 0) cursor (cursor + lens.sum) spans ∧
      ∀ {σ ε : Type} (copy : Nat → Nat → σ → Except ε Unit × σ) (counts : Nat × Nat) (s : σ),
        (plan.capture watch).2.copyRuns copy cursor lens counts s =
          some (performs copy spans counts s) := by
  induction lens generalizing cursor with
  | nil => exact ⟨[], .nil fun place hge hlt => absurd hlt (Nat.not_lt.mpr hge),
      fun copy counts s => rfl⟩
  | cons len rest ih =>
    obtain ⟨hlen, hrest⟩ := List.forall_mem_cons.mp hlens
    rw [List.sum_cons, ← Nat.add_assoc] at hhigh ⊢
    obtain ⟨spans, hspans, hcopy⟩ := planCopy_spans h hcovers hcursor hlen hlow (by omega)
    obtain ⟨later, hlater, hruns⟩ := ih (cursor + len) (by unfold PAGE at *; omega) hrest (by omega)
      hhigh
    refine ⟨spans ++ later, hspans.append hlater (Nat.le_add_right _ _) (Nat.le_add_right _ _),
      fun copy counts s => ?_⟩
    unfold Plan.copyRuns
    have hcounts := @performs_counts _ _ copy spans counts (0, 0) s
    rw [Nat.add_zero, Nat.add_zero] at hcounts
    rw [hcopy, performs_append, hcounts]
    rcases performs copy spans (0, 0) s with ⟨_ | _, s'⟩
    · rfl
    · exact hruns copy _ s'

theorem copyRuns_copiesAll (h : watch.Readable plan)
    (hcovers : watch.Covers plan f) (hbase : plan.base % PAGE = 0) {lens : List Nat}
    (hlens : ∀ len ∈ lens, len % PAGE = 0) (hsum : lens.sum = plan.len) :
    ∃ spans, CopiesAll f (fun _ => 0) plan.base (plan.base + plan.len) id
      (fun copy s => (plan.capture watch).2.copyRuns copy plan.base lens (0, 0) s) spans := by
  obtain ⟨spans, hspans, hcopy⟩ := copyRuns_spans h hcovers lens plan.base hbase hlens
    (Nat.le_refl _) (by omega)
  rw [hsum] at hspans
  refine ⟨spans, copiesAll_of_spans hspans fun copy s => ?_⟩
  rw [hcopy, performs_map_id]

end Kinakaze.Fork
