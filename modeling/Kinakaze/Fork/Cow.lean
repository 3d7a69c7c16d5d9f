import Kinakaze.Fork.WriteWatch

/-!
# Copying private pages

The destination is a view of the section the source is a view of.  The pages the system reports as
valid and shared are left alone, and the others are handed over, adjoining ones in one call.
-/

namespace Kinakaze.Fork

open Kinakaze.Library

def PAGE_SIZE : Nat := 4096

def BATCH : Nat := 256

def VALID_SHARED : BitVec 64 := 1 ||| (1 <<< 15)

structure CopyStats where
  copied : Nat
  shared : Nat
  calls : Nat

/-- An answer of `QueryWorkingSetEx`: whether it succeeded, and the flags of each page asked for. -/
structure WorkingSet where
  ok : Bool
  flags : Nat → BitVec 64

/-- The page is not in the working set. -/
def WorkingSet.nonresident (set : WorkingSet) (index : Nat) : Bool := decide (set.flags index &&& 1 = 0)

/-- The reads that fault nonresident pages in. -/
def prefaultPages (memory : Region) (set : WorkingSet) (address : Nat) : List Nat → Option Unit
  | [] => some ()
  | index :: rest =>
    if set.nonresident index then
      match memory.read (address + index * PAGE_SIZE) with
      | none => none
      | some _ => prefaultPages memory set address rest
    else prefaultPages memory set address rest

/-- The answer a batch is judged by: the first one, or the second after its pages are faulted in. -/
def queryBatch (memory : Region) (first second : WorkingSet) (prefault : Bool)
    (address count : Nat) : Option WorkingSet :=
  if first.ok && prefault && (List.range count).any first.nonresident then
    match prefaultPages memory first address (List.range count) with
    | none => none
    | some () => some second
  else some first

def WorkingSet.isPrivate (set : WorkingSet) (index : Nat) : Bool :=
  !set.ok || decide (set.flags index &&& VALID_SHARED ≠ VALID_SHARED)

section Copy

variable {σ ε : Type}

/-- The loop over the pages of a batch. -/
def batchLoop (set : WorkingSet) (offset : Nat) (copy : Nat → Nat → σ → Except ε Unit × σ) :
    List Nat → Option Nat → CopyStats → σ → Except ε (Option Nat × CopyStats) × σ
  | [], run, stats, s => (.ok (run, stats), s)
  | index :: rest, run, stats, s =>
    let position := offset + index * PAGE_SIZE
    if set.isPrivate index then
      batchLoop set offset copy rest (some (run.getD position)) stats s
    else
      match run with
      | some start =>
        let bytes := position - start
        match copy start bytes s with
        | (.error e, s') => (.error e, s')
        | (.ok (), s') =>
          batchLoop set offset copy rest none
            { copied := stats.copied + bytes, shared := stats.shared + PAGE_SIZE,
              calls := stats.calls + 1 } s'
      | none =>
        batchLoop set offset copy rest none { stats with shared := stats.shared + PAGE_SIZE } s

/-- `answers` are the two answers for the batch at an offset. -/
def cowLoop (memory : Region) (answers : Nat → WorkingSet × WorkingSet) (source length : Nat)
    (prefault : Bool) (copy : Nat → Nat → σ → Except ε Unit × σ) :
    Nat → Option Nat → Nat → CopyStats → σ → Option (Except ε CopyStats × σ)
  | 0, _, _, _, _ => none
  | fuel + 1, run, offset, stats, s =>
    if offset < length then
      let count := min ((length - offset) / PAGE_SIZE) BATCH
      match queryBatch memory (answers offset).1 (answers offset).2 prefault (source + offset) count with
      | none => none
      | some set =>
        match batchLoop set offset copy (List.range count) run stats s with
        | (.error e, s') => some (.error e, s')
        | (.ok (run, stats), s') =>
          cowLoop memory answers source length prefault copy fuel run (offset + count * PAGE_SIZE)
            stats s'
    else
      match run with
      | some start =>
        let bytes := length - start
        match copy start bytes s with
        | (.error e, s') => some (.error e, s')
        | (.ok (), s') =>
          some (.ok { stats with copied := stats.copied + bytes, calls := stats.calls + 1 }, s')
      | none => some (.ok stats, s)

/-- `cow::copy_pages`; `none` is a fault. -/
def copyPages (memory : Region) (answers : Nat → WorkingSet × WorkingSet) (source length : Nat)
    (prefault : Bool) (copy : Nat → Nat → σ → Except ε Unit × σ) (s : σ) :
    Option (Except ε CopyStats × σ) :=
  cowLoop memory answers source length prefault copy (length + 1) none 0
    { copied := 0, shared := 0, calls := 0 } s

end Copy

/-! ## The answer for a batch -/

variable {memory : Region}

theorem prefaultPages_some {address : Nat} (set : WorkingSet) (indices : List Nat)
    (h : ∀ index ∈ indices, (memory.read (address + index * PAGE_SIZE)).isSome) :
    prefaultPages memory set address indices = some () := by
  induction indices with
  | nil => rfl
  | cons index rest ih =>
    obtain ⟨hindex, hrest⟩ := List.forall_mem_cons.mp h
    unfold prefaultPages
    obtain ⟨byte, hbyte⟩ := Option.isSome_iff_exists.mp hindex
    rw [hbyte, ih hrest, ite_self]

/-- How many pages the batch at an offset has. -/
def batchCount (length offset : Nat) : Nat := min ((length - offset) / PAGE_SIZE) BATCH

/-- A page that its batch's answer reports as valid and shared is the section's. -/
def SharedPages (memory : Region) (answers : Nat → WorkingSet × WorkingSet) (source length : Nat)
    (prefault : Bool) (f g : Nat → Byte) : Prop :=
  ∀ offset set, offset % (BATCH * PAGE_SIZE) = 0 →
    queryBatch memory (answers offset).1 (answers offset).2 prefault (source + offset)
      (batchCount length offset) = some set →
    ∀ index < batchCount length offset, set.isPrivate index = false → ∀ place,
      offset + index * PAGE_SIZE ≤ place → place < offset + index * PAGE_SIZE + PAGE_SIZE →
      f place = g place

theorem queryBatch_some (first second : WorkingSet) (prefault : Bool) {address count : Nat}
    (h : ∀ index < count, (memory.read (address + index * PAGE_SIZE)).isSome) :
    ∃ set, queryBatch memory first second prefault address count = some set := by
  unfold queryBatch
  rw [prefaultPages_some first _ fun index hindex => h index (List.mem_range.mp hindex)]
  split_ifs
  · exact ⟨second, rfl⟩
  · exact ⟨first, rfl⟩

/-! ## The spans it hands over -/

/-- What handing over spans comes to, with the bytes that were shared. -/
def withShared {σ ε : Type} (shared : Nat) (outcome : Except ε (Nat × Nat) × σ) :
    Except ε CopyStats × σ :=
  outcome.map (Except.map fun counts => ⟨counts.1, shared, counts.2⟩) id

/-- Before the page at `position`, with `run` open, the rest of the loop hands over spans up to
`high`; what they leave out is shared. -/
def Hands (needed : Nat → Prop) (position high : Nat) (run : Option Nat)
    (next : ∀ {σ ε : Type}, (Nat → Nat → σ → Except ε Unit × σ) → CopyStats → σ →
      Option (Except ε CopyStats × σ)) : Prop :=
  ∃ spans shared, totalLength spans + shared + run.getD position = high ∧
    SpansFrom needed position high (runOf run position) spans ∧
    ∀ {σ ε : Type} (copy : Nat → Nat → σ → Except ε Unit × σ) (stats : CopyStats) (s : σ),
      next copy stats s = some (withShared (stats.shared + shared)
        (performs copy spans (stats.copied, stats.calls) s))

section Hands

variable {needed : Nat → Prop} {position high : Nat} {run : Option Nat}
  {next : ∀ {σ ε : Type}, (Nat → Nat → σ → Except ε Unit × σ) → CopyStats → σ →
    Option (Except ε CopyStats × σ)}

theorem runTo_here (hrun : ∀ start, run = some start → start < position) :
    RunTo needed position (runOf run position) := by
  intro start stop hsame
  obtain ⟨begin, hbegin, hpair⟩ := Option.map_eq_some_iff.mp hsame
  obtain ⟨rfl, rfl⟩ := Prod.mk.inj hpair
  exact ⟨hrun _ hbegin, Nat.le_refl _, fun place hge hlt => absurd hlt (Nat.not_lt.mpr hge)⟩

theorem Hands.privatePage
    (h : Hands needed (position + PAGE_SIZE) high (some (run.getD position)) next) :
    Hands needed position high run next := by
  obtain ⟨spans, shared, htotal, hspans, hnext⟩ := h
  refine ⟨spans, shared, htotal, ?_, hnext⟩
  cases run with
  | none => exact SpansFrom.opened hspans (Nat.le_refl _) fun place hge hlt =>
      absurd hlt (Nat.not_lt.mpr hge)
  | some start => exact SpansFrom.extend hspans (Nat.le_add_right _ _)

theorem Hands.sharedPage (h : Hands needed (position + PAGE_SIZE) high none next)
    (hnone : ∀ place, position ≤ place → place < position + PAGE_SIZE → ¬ needed place) :
    Hands needed position high none fun copy stats s =>
      next copy { stats with shared := stats.shared + PAGE_SIZE } s := by
  obtain ⟨spans, shared, htotal, hspans, hnext⟩ := h
  refine ⟨spans, PAGE_SIZE + shared, ?_, Spans.skip hspans (Nat.le_add_right _ _) hnone,
    fun copy stats s => ?_⟩
  · simp only [Option.getD_none] at htotal ⊢
    omega
  · rw [hnext, Nat.add_assoc]

theorem Hands.sharedAfterRun {start : Nat} (h : Hands needed (position + PAGE_SIZE) high none next)
    (hstart : start < position)
    (hnone : ∀ place, position ≤ place → place < position + PAGE_SIZE → ¬ needed place) :
    Hands needed position high (some start) fun copy stats s =>
      match copy start (position - start) s with
      | (.error e, s') => some (.error e, s')
      | (.ok (), s') =>
        next copy { copied := stats.copied + (position - start),
                    shared := stats.shared + PAGE_SIZE, calls := stats.calls + 1 } s' := by
  obtain ⟨spans, shared, htotal, hspans, hnext⟩ := h
  simp only [Option.getD_none] at htotal
  have hrun : RunTo needed position (some (start, position)) :=
    runTo_here (fun _ hsome => Option.some.inj hsome ▸ hstart : ∀ s, some start = some s → s < position)
  refine ⟨(start, position - start) :: spans, PAGE_SIZE + shared, ?_,
    SpansFrom.close hrun (Nat.le_add_right _ _) (by omega) hnone hspans, fun copy stats s => ?_⟩
  · rw [totalLength_cons, Option.getD_some]
    omega
  · rw [performs_cons, ← Nat.add_assoc]
    dsimp only
    rcases copy start (position - start) s with ⟨_ | _, s'⟩
    · rfl
    · exact hnext copy _ s'

end Hands

theorem batchLoop_hands {needed : Nat → Prop} {high : Nat} (set : WorkingSet) (offset n i : Nat)
    (run : Option Nat) (hrun : ∀ start, run = some start → start < offset + i * PAGE_SIZE)
    (hshared : ∀ index, i ≤ index → index < i + n → set.isPrivate index = false → ∀ place,
      offset + index * PAGE_SIZE ≤ place → place < offset + index * PAGE_SIZE + PAGE_SIZE →
      ¬ needed place)
    (next : ∀ {σ ε : Type}, (Nat → Nat → σ → Except ε Unit × σ) → Option Nat → CopyStats → σ →
      Option (Except ε CopyStats × σ))
    (hnext : ∀ run', (∀ start, run' = some start → start < offset + (i + n) * PAGE_SIZE) →
      Hands needed (offset + (i + n) * PAGE_SIZE) high run' fun copy stats s =>
        next copy run' stats s) :
    Hands needed (offset + i * PAGE_SIZE) high run fun copy stats s =>
      match batchLoop set offset copy (List.range' i n) run stats s with
      | (.error e, s') => some (.error e, s')
      | (.ok (run', stats'), s') => next copy run' stats' s' := by
  induction n generalizing i run with
  | zero => exact hnext run hrun
  | succ n ih =>
    have hstep : offset + (i + 1) * PAGE_SIZE = offset + i * PAGE_SIZE + PAGE_SIZE := by
      rw [Nat.add_mul, Nat.one_mul, Nat.add_assoc]
    have hafter : i + 1 + n = i + (n + 1) := by omega
    have hpage : 0 < PAGE_SIZE := by decide
    have hrest := fun run' hrun' => ih (i + 1) run' hrun'
      (fun index hge hlt => hshared index (by omega) (by omega)) (by rw [hafter]; exact hnext)
    rw [hstep] at hrest
    have hfirst := hshared i (Nat.le_refl _) (by omega)
    rw [List.range'_succ]
    unfold batchLoop
    cases hprivate : set.isPrivate i with
    | true =>
      refine Hands.privatePage (hrest (some (run.getD (offset + i * PAGE_SIZE))) ?_)
      rintro start hsame
      obtain rfl := Option.some.inj hsame
      cases run with
      | none => exact Nat.lt_add_of_pos_right hpage
      | some start => exact Nat.lt_trans (hrun start rfl) (Nat.lt_add_of_pos_right hpage)
    | false =>
      have hclean := hrest none fun start hnone => (nomatch hnone)
      cases run with
      | none => exact Hands.sharedPage hclean (hfirst hprivate)
      | some start =>
        obtain ⟨spans, shared, htotal, hspans, hcopy⟩ :=
          Hands.sharedAfterRun hclean (hrun start rfl) (hfirst hprivate)
        refine ⟨spans, shared, htotal, hspans, fun copy stats s => ?_⟩
        rw [← hcopy]
        dsimp only
        rcases copy start (offset + i * PAGE_SIZE - start) s with ⟨_ | _, s'⟩ <;> rfl

variable {answers : Nat → WorkingSet × WorkingSet}

theorem cowLoop_hands {source length : Nat} {prefault : Bool} {f g : Nat → Byte}
    (hread : ∀ place < length, (memory.read (source + place)).isSome)
    (hshared : SharedPages memory answers source length prefault f g)
    (hlength : length % PAGE_SIZE = 0) (fuel : Nat) (run : Option Nat) (offset : Nat)
    (hfuel : length - offset < fuel) (hoffset : offset ≤ length)
    (hbatch : offset = length ∨ offset % (BATCH * PAGE_SIZE) = 0)
    (hrun : ∀ start, run = some start → start < offset) :
    Hands (fun place => f place ≠ g place) offset length run fun copy stats s =>
      cowLoop memory answers source length prefault copy fuel run offset stats s := by
  induction fuel generalizing run offset with
  | zero => omega
  | succ fuel ih =>
    unfold cowLoop
    by_cases hmore : offset < length
    · have haligned : offset % (BATCH * PAGE_SIZE) = 0 := hbatch.resolve_left (by omega)
      have hcount : batchCount length offset = min ((length - offset) / PAGE_SIZE) BATCH := rfl
      generalize hn : batchCount length offset = count at hcount
      have hbounds : 0 < count ∧ offset + count * PAGE_SIZE ≤ length ∧
          (offset + count * PAGE_SIZE = length ∨
            (offset + count * PAGE_SIZE) % (BATCH * PAGE_SIZE) = 0) := by
        unfold BATCH PAGE_SIZE at *
        omega
      obtain ⟨hpos, hend, hbatch'⟩ := hbounds
      have hpages : ∀ index < count,
          (memory.read (source + offset + index * PAGE_SIZE)).isSome := by
        intro index hindex
        rw [Nat.add_assoc]
        refine hread _ ?_
        unfold PAGE_SIZE at hend ⊢
        omega
      obtain ⟨set, hset⟩ := queryBatch_some (answers offset).1 (answers offset).2 prefault hpages
      have hloop := batchLoop_hands set offset count 0 run
        (by rw [Nat.zero_mul, Nat.add_zero]; exact hrun)
        (fun index _ hlt hprivate place hge hplace => not_not.mpr
          (hshared offset set haligned (hn.symm ▸ hset) index (by omega) hprivate place hge hplace))
        (fun copy run' stats s => cowLoop memory answers source length prefault copy fuel run'
          (offset + count * PAGE_SIZE) stats s)
        (by
          rw [Nat.zero_add]
          refine fun run' hrun' => ih run' _ ?_ hend hbatch' hrun'
          unfold PAGE_SIZE at hend ⊢
          omega)
      rw [Nat.zero_mul, Nat.add_zero, ← List.range_eq_range'] at hloop
      simp only [if_pos hmore, ← hcount, hset]
      exact hloop
    · obtain rfl : offset = length := Nat.le_antisymm hoffset (Nat.le_of_not_lt hmore)
      simp only [if_neg hmore]
      have hnone : ∀ place, offset ≤ place → place < offset → ¬ f place ≠ g place :=
        fun place hge hlt => absurd hlt (Nat.not_lt.mpr hge)
      cases run with
      | none => exact ⟨[], 0, by simp, .nil hnone, fun copy stats s => rfl⟩
      | some start =>
        have hstart := hrun start rfl
        refine ⟨[(start, offset - start)], 0, ?_, SpansFrom.close (runTo_here hrun) (Nat.le_refl _)
          (Nat.le_refl _) hnone (.nil hnone), fun copy stats s => ?_⟩
        · rw [totalLength_cons, totalLength_nil, Option.getD_some]
          omega
        · rw [performs_cons]
          dsimp only
          rcases copy start (offset - start) s with ⟨_ | _, s'⟩ <;> rfl

/-- Copying onto a view of the section hands over every page that is not the section's; what it
reports as shared is the rest. -/
theorem copyPages_copiesAll (memory : Region) {prefault : Bool} {g : Nat → Byte}
    (hlength : memory.content.length % PAGE_SIZE = 0)
    (hshared : SharedPages memory answers memory.base memory.content.length prefault
      (fun offset => memory.content.getD offset 0) g) :
    ∃ spans shared, totalLength spans + shared = memory.content.length ∧
      CopiesAll (fun offset => memory.content.getD offset 0) g 0 memory.content.length
        (fun counts => { copied := counts.1, shared, calls := counts.2 })
        (fun copy s =>
          copyPages memory answers memory.base memory.content.length prefault copy s) spans := by
  have hread : ∀ place < memory.content.length, (memory.read (memory.base + place)).isSome := by
    intro place hplace
    unfold Region.read
    rw [if_neg (by omega), Nat.add_sub_cancel_left, List.getElem?_eq_getElem hplace]
    rfl
  obtain ⟨spans, shared, htotal, hspans, hcopy⟩ := cowLoop_hands hread hshared hlength
    (memory.content.length + 1) none 0 (by omega) (Nat.zero_le _) (.inr (Nat.zero_mod _))
    (fun _ hnone => (nomatch hnone))
  refine ⟨spans, shared, htotal, copiesAll_of_spans hspans fun copy s => ?_⟩
  have hrun := hcopy copy ⟨0, 0, 0⟩ s
  rw [Nat.zero_add] at hrun
  exact hrun

end Kinakaze.Fork

/-!
## The copiers of `fork`

* `copiers_copyAll`: each of the three leaves the destination equal to the source.
-/

namespace Kinakaze.Fork

open Kinakaze.Library

/-- Each copier hands over ascending, disjoint spans of its region that make the destination equal
to the source, reports them, and stops at the first one that is refused.

The sparse one does over zeros.  A plan captured from a history with every page that is not zero
does over zeros, for each run alone and for the runs of the region in turn.  The copy-on-write one
does over the section, if the pages reported as shared are the section's. -/
theorem copiers_copyAll : (∀ memory : Region, ∃ spans,
      CopiesAll (fun offset => memory.content.getD offset 0) (fun _ => 0) 0 memory.content.length id
        (fun copy s => sparseCopy memory memory.base memory.content.length copy s) spans) ∧
    (∀ (plan : Plan) (watch : WriteWatch plan.pages.length) (written : Nat → Byte),
      watch.Readable plan → watch.Covers plan written →
      (plan.capture watch).1 = true ∧
      (∀ base len, base % PAGE = 0 → len % PAGE = 0 → plan.base ≤ base →
        base + len ≤ plan.base + plan.len →
        ∃ spans, CopiesAll written (fun _ => 0) base (base + len) id
          (fun copy s => (plan.capture watch).2.copy base len copy s) spans) ∧
      ∀ lens : List Nat, plan.base % PAGE = 0 → (∀ len ∈ lens, len % PAGE = 0) →
        lens.sum = plan.len →
        ∃ spans, CopiesAll written (fun _ => 0) plan.base (plan.base + plan.len) id
          (fun copy s => (plan.capture watch).2.copyRuns copy plan.base lens (0, 0) s) spans) ∧
    ∀ (memory : Region) (answers : Nat → WorkingSet × WorkingSet) (prefault : Bool)
      (mapped : Nat → Byte), memory.content.length % PAGE_SIZE = 0 →
      SharedPages memory answers memory.base memory.content.length prefault
        (fun offset => memory.content.getD offset 0) mapped →
      ∃ spans shared, totalLength spans + shared = memory.content.length ∧
        CopiesAll (fun offset => memory.content.getD offset 0) mapped 0 memory.content.length
          (fun counts => { copied := counts.1, shared, calls := counts.2 })
          (fun copy s =>
            copyPages memory answers memory.base memory.content.length prefault copy s) spans := by
  refine ⟨sparseCopy_copiesAll, fun plan watch written hreadable hcovers => ⟨?_, ?_, ?_⟩, ?_⟩
  · exact (capture_iff plan watch).mpr hreadable
  · exact fun base len hbase hlen hlow hhigh =>
      planCopy_copiesAll hreadable hcovers hbase hlen hlow hhigh
  · exact fun lens hbase hlens hsum => copyRuns_copiesAll hreadable hcovers hbase hlens hsum
  · exact fun memory answers prefault mapped hlength hshared =>
      copyPages_copiesAll memory hlength hshared

/-- Two pages, reported last one first. -/
def twoPages : Plan := { base := 0x10000, len := 0x2000, pages := [0, 0], used := none }

def lastFirst : WriteWatch twoPages.pages.length where
  status := 0
  count := 2
  granularity := 4096
  buffer := [0x11000, 0x10000]
  sized := rfl

/-- Two pages of ones, the second of them the section's. -/
def ones : Region := { base := 0x10000, content := List.replicate 0x2000 1 }

def secondShared : Nat → WorkingSet × WorkingSet := fun _ =>
  let set : WorkingSet := { ok := true, flags := fun index => if index = 1 then 0x8001 else 1 }
  (set, set)

theorem copiers_copyAll_twoPages :
    (∃ spans, CopiesAll (fun _ => (1 : Byte)) (fun _ => 0) 0x10000 0x12000 id
      (fun copy s => (twoPages.capture lastFirst).2.copyRuns copy 0x10000 [0x1000, 0x1000] (0, 0) s)
      spans) ∧
    ∃ spans shared, totalLength spans + shared = ones.content.length ∧
      CopiesAll (fun offset => ones.content.getD offset 0)
        (fun offset => if offset < 0x1000 then 0 else 1) 0 ones.content.length
        (fun counts => { copied := counts.1, shared, calls := counts.2 })
        (fun copy s => copyPages ones secondShared ones.base ones.content.length true copy s)
        spans := by
  have hreadable : lastFirst.Readable twoPages := ⟨rfl, rfl, by decide, by decide⟩
  have hcovers : lastFirst.Covers twoPages fun _ => 1 := by
    intro place hlow hhigh _
    change 0x10000 ≤ place at hlow
    change place < 0x10000 + 0x2000 at hhigh
    change place / 4096 * 4096 ∈ [0x11000, 0x10000]
    rw [List.mem_cons, List.mem_singleton]
    omega
  have hlength : ones.content.length = 0x2000 := List.length_replicate
  have hshared : SharedPages ones secondShared ones.base ones.content.length true
      (fun offset => ones.content.getD offset 0)
      (fun offset => if offset < 0x1000 then 0 else 1) := by
    intro offset set hoffset hset index hindex hprivate place hge hlt
    have hsame : set = (secondShared offset).1 := by
      unfold queryBatch at hset
      split_ifs at hset
      · split at hset
        · cases hset
        · exact (Option.some.inj hset).symm
      · exact (Option.some.inj hset).symm
    rw [hsame] at hprivate
    unfold batchCount BATCH at hindex
    unfold BATCH at hoffset
    unfold PAGE_SIZE at hge hlt hindex hoffset
    rw [hlength] at hindex
    have hsecond : index = 1 := by
      by_contra hne
      have hflags : (secondShared offset).1.flags index = 1 := if_neg hne
      unfold WorkingSet.isPrivate at hprivate
      rw [hflags] at hprivate
      change (!true || decide ((1 : BitVec 64) &&& VALID_SHARED ≠ VALID_SHARED)) = false at hprivate
      exact absurd hprivate (by decide)
    have hplace : place < 0x2000 := by omega
    dsimp only
    rw [if_neg (by omega), List.getD_eq_getElem?_getD]
    change (List.replicate 0x2000 1)[place]?.getD 0 = 1
    rw [List.getElem?_replicate_of_lt hplace, Option.getD_some]
  have hall := copiers_copyAll
  exact ⟨(hall.2.1 twoPages lastFirst (fun _ => 1) hreadable hcovers).2.2 [0x1000, 0x1000] (by decide)
    (by decide) rfl, hall.2.2 ones secondShared true _ (by rw [hlength]; decide) hshared⟩

end Kinakaze.Fork
