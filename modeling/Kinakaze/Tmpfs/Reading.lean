import Kinakaze.Tmpfs.Allocating
import Mathlib.Order.Nat

/-!
# Reading a file, and seeking its data and holes

* `readRuns_eq`, `readParts_eq`: a read, by runs of neighbouring slots or page by page,
  returns the file's bytes.
* `seekData_spec`, `seekHole_spec`: the least position with data, or in a hole.
-/

namespace Kinakaze.Tmpfs

open Library Std

/-- The entries of the pages from `first` on, in order. -/
def entriesFrom (pages : Table Nat) (first : Nat) : List (Nat × Nat) :=
  pages.toList.filter fun entry => decide (first ≤ entry.1)

/-- The last page of the run of neighbouring pages in neighbouring slots, and what follows. -/
def extendRun (lastPage lastSlot : Nat) : List (Nat × Nat) → Nat × List (Nat × Nat)
  | [] => (lastPage, [])
  | (page, slot) :: rest =>
    if lastPage + 1 = page ∧ lastSlot + 1 = slot then extendRun page slot rest
    else (lastPage, (page, slot) :: rest)

theorem length_extendRun (lastPage lastSlot : Nat) (entries : List (Nat × Nat)) :
    (extendRun lastPage lastSlot entries).2.length ≤ entries.length := by
  induction entries generalizing lastPage lastSlot with
  | nil => exact Nat.le_refl _
  | cons entry rest ih =>
    obtain ⟨page, slot⟩ := entry
    unfold extendRun
    split
    · exact Nat.le_trans (ih page slot) (Nat.le_succ _)
    · exact Nat.le_refl _

/-- `read_runs`: the buffer for the bytes from `position` to before `stop`. -/
def readRuns (view : Nat → BitVec 8) (offset stop : Nat) (position : Nat) :
    List (Nat × Nat) → List (BitVec 8)
  | [] => List.replicate (stop - position) 0
  | (page, slot) :: rest =>
    let start := max (page * PAGE) offset
    let run := extendRun page slot rest
    let last := min ((run.1 + 1) * PAGE) stop
    List.replicate (start - position) 0 ++
      ((List.range (last - start)).map fun k => view (slot * PAGE + start % PAGE + k)) ++
      readRuns view offset stop last run.2
termination_by entries => entries.length
decreasing_by
  exact Nat.lt_succ_of_le (length_extendRun page slot rest)

/-- The loop of `read` that goes page by page. -/
def readParts (pages : Table Nat) (view : Nat → BitVec 8) (stop position : Nat) : List (BitVec 8) :=
  if position < stop then
    let part := min (PAGE - position % PAGE) (stop - position)
    (match pages[position / PAGE]? with
      | some slot => (List.range part).map fun k => view (slot * PAGE + position % PAGE + k)
      | none => List.replicate part 0) ++ readParts pages view stop (position + part)
  else []
termination_by stop - position
decreasing_by
  have := Nat.mod_lt position (show 0 < PAGE by decide)
  omega

/-- `read_pages::read`: the bytes of a file at a position, by runs or page by page. -/
def Node.read (optimized : Bool) (n : Node) (view : Nat → BitVec 8) (position count : Nat) :
    List (BitVec 8) :=
  if !optimized then readParts n.pages view (position + count) position
  else if count = 0 then []
  else
    readRuns view position (position + count) position
      ((entriesFrom n.pages (position / PAGE)).filter fun entry =>
        decide (entry.1 ≤ (position + count - 1) / PAGE))

/-- `read` at a position, of at most `len` bytes. -/
def Work.read (optimized : Bool) (w : Work) (id position len : Nat) :
    Work × Except Int (List (BitVec 8)) :=
  match w.state.nodes[id]? with
  | none => (w, .error ENOENT)
  | some n =>
    if n.mode &&& S_IFMT == S_IFDIR then (w, .error EISDIR)
    else (w, .ok (n.read optimized w.view position (min len (n.size - position))))

/-- `seek` with `SEEK_DATA`. -/
def Node.seekData (n : Node) (start : Nat) : Except Int Nat :=
  if start ≥ n.size then .error ENXIO
  else
    match (entriesFrom n.pages (start / PAGE)).head? with
    | none => .error ENXIO
    | some entry =>
      let next := if entry.1 = start / PAGE then start else entry.1 * PAGE
      if next ≥ n.size then .error ENXIO else .ok next

/-- The first page behind the neighbouring ones. -/
def holeFrom (hole : Nat) : List (Nat × Nat) → Nat
  | [] => hole
  | (page, _) :: rest => if page = hole then holeFrom (hole + 1) rest else hole

/-- `seek` with `SEEK_HOLE`. -/
def Node.seekHole (n : Node) (start : Nat) : Except Int Nat :=
  if start ≥ n.size then .error ENXIO
  else if n.pages[start / PAGE]?.isNone then .ok start
  else .ok (min (holeFrom (start / PAGE) (entriesFrom n.pages (start / PAGE)) * PAGE) n.size)

/-! ## The entries of a table in order -/

theorem mem_entriesFrom {pages : Table Nat} {first page slot : Nat} :
    (page, slot) ∈ entriesFrom pages first ↔ pages[page]? = some slot ∧ first ≤ page := by
  rw [entriesFrom, List.mem_filter, ExtTreeMap.mem_toList_iff_getElem?_eq_some, decide_eq_true_eq]

theorem entries_sorted (pages : Table Nat) (first : Nat) :
    (entriesFrom pages first).Pairwise fun a b => a.1 < b.1 := by
  refine List.Pairwise.filter _ ?_
  exact ExtTreeMap.ordered_keys_toList.imp fun hab => Nat.compare_eq_lt.mp hab

/-! ## Reading -/

/-- A byte of the listed pages. -/
def byteOf (view : Nat → BitVec 8) (entries : List (Nat × Nat)) (i : Nat) : BitVec 8 :=
  match entries.find? fun entry => entry.1 == i / PAGE with
  | some entry => view (entry.2 * PAGE + i % PAGE)
  | none => 0

variable {entries : List (Nat × Nat)}

theorem byteOf_mem {view : Nat → BitVec 8} (hsorted : entries.Pairwise fun a b => a.1 < b.1)
    {entry : Nat × Nat} (hentry : entry ∈ entries) {i : Nat} (hi : i / PAGE = entry.1) :
    byteOf view entries i = view (entry.2 * PAGE + i % PAGE) := by
  unfold byteOf
  cases hfind : entries.find? fun e => e.1 == i / PAGE with
  | none =>
    have hnot := List.find?_eq_none.mp hfind entry hentry
    rw [hi, beq_self_eq_true] at hnot
    exact absurd rfl hnot
  | some other =>
    have hother := List.mem_of_find?_eq_some hfind
    have hkey : other.1 = entry.1 := by
      have := List.find?_some hfind
      rw [beq_iff_eq] at this
      rw [this, hi]
    have hnodup : (entries.map Prod.fst).Nodup :=
      List.pairwise_map.mpr (hsorted.imp fun hab => Nat.ne_of_lt hab)
    rw [List.inj_on_of_nodup_map hnodup hother hentry hkey]

theorem byteOf_none {view : Nat → BitVec 8} {i : Nat}
    (h : ∀ entry ∈ entries, entry.1 ≠ i / PAGE) : byteOf view entries i = 0 := by
  have hfind : (entries.find? fun entry => entry.1 == i / PAGE) = none := by
    rw [List.find?_eq_none]
    intro entry hentry hsome
    exact h entry hentry (beq_iff_eq.mp hsome)
  rw [byteOf, hfind]

/-- A run is neighbouring pages in neighbouring slots; what follows lies behind it. -/
theorem extendRun_spec (rest : List (Nat × Nat)) (page slot : Nat)
    (hsorted : ((page, slot) :: rest).Pairwise fun a b => a.1 < b.1) :
    page ≤ (extendRun page slot rest).1 ∧
      (∀ k, page + k ≤ (extendRun page slot rest).1 → (page + k, slot + k) ∈ (page, slot) :: rest) ∧
      (extendRun page slot rest).2.Sublist rest ∧
      (∀ entry ∈ (extendRun page slot rest).2, (extendRun page slot rest).1 < entry.1) ∧
      ∀ entry ∈ rest, entry ∈ (extendRun page slot rest).2 ∨
        entry.1 ≤ (extendRun page slot rest).1 := by
  induction rest generalizing page slot with
  | nil =>
    refine ⟨Nat.le_refl _, fun k hk => ?_, List.Sublist.refl _, ?_, ?_⟩
    · have hk' : page + k ≤ page := hk
      have hzero : k = 0 := by omega
      rw [hzero]
      exact List.mem_cons_self
    · intro entry hentry
      cases hentry
    · intro entry hentry
      cases hentry
  | cons entry rest ih =>
    obtain ⟨next, nextSlot⟩ := entry
    obtain ⟨hfirst, hrest⟩ := List.pairwise_cons.mp hsorted
    unfold extendRun
    split
    · next heq =>
      obtain ⟨rfl, rfl⟩ := heq
      obtain ⟨hle, hrun, hsub, hbehind, hcover⟩ := ih _ _ hrest
      refine ⟨by omega, fun k hk => ?_, hsub.cons _, hbehind, ?_⟩
      · cases k with
        | zero => exact List.mem_cons_self
        | succ k =>
          have hmem := hrun k (by omega)
          rw [show page + (k + 1) = page + 1 + k by omega,
            show slot + (k + 1) = slot + 1 + k by omega]
          exact List.mem_cons_of_mem _ hmem
      · intro other hother
        rcases List.mem_cons.mp hother with rfl | hother
        · exact .inr hle
        · exact hcover other hother
    · refine ⟨Nat.le_refl _, fun k hk => ?_, List.Sublist.refl _, ?_, ?_⟩
      · have hk' : page + k ≤ page := hk
        have hzero : k = 0 := by omega
        rw [hzero]
        exact List.mem_cons_self
      · exact hfirst
      · exact fun other hother => .inl hother

/-- `read_runs` returns the bytes of the listed pages, and zeros between them. -/
theorem readRuns_eq (view : Nat → BitVec 8) (offset stop count : Nat) {position : Nat}
    (hcount : entries.length = count)
    (hsorted : entries.Pairwise fun a b => a.1 < b.1) (hoffset : offset ≤ position)
    (hstop : position ≤ stop)
    (hentries : ∀ entry ∈ entries, entry.1 * PAGE < stop ∧ offset < (entry.1 + 1) * PAGE ∧
      position ≤ max (entry.1 * PAGE) offset) :
    readRuns view offset stop position entries =
      (List.range' position (stop - position)).map (byteOf view entries) := by
  induction count using Nat.strongRecOn generalizing entries position with
  | _ count ih =>
    cases entries with
    | nil =>
      rw [readRuns]
      have hzero : ∀ i, byteOf view [] i = 0 := fun i => rfl
      refine (List.eq_replicate_iff.mpr ⟨by simp, fun b hb => ?_⟩).symm
      obtain ⟨i, -, rfl⟩ := List.mem_map.mp hb
      exact hzero i
    | cons entry rest =>
      obtain ⟨page, slot⟩ := entry
      obtain ⟨hle, hrun, hsub, hbehind, hcover⟩ := extendRun_spec rest page slot hsorted
      obtain ⟨hpageStop, hpageOffset, hstart⟩ := hentries (page, slot) List.mem_cons_self
      dsimp only at hpageStop hpageOffset hstart
      have hpos : 0 < PAGE := by decide
      have hmul : (page + 1) * PAGE = page * PAGE + PAGE := Nat.succ_mul _ _
      have hlastMul : (page + 1) * PAGE ≤ ((extendRun page slot rest).1 + 1) * PAGE :=
        Nat.mul_le_mul_right _ (by omega)
      rw [readRuns]
      generalize hst : max (page * PAGE) offset = start
      generalize hla : min (((extendRun page slot rest).1 + 1) * PAGE) stop = last
      have hstartLast : start ≤ last := by omega
      -- What follows the run, by induction.
      have hrest : readRuns view offset stop last (extendRun page slot rest).2 =
          (List.range' last (stop - last)).map (byteOf view (extendRun page slot rest).2) :=
        ih (extendRun page slot rest).2.length (by
          have hlen := hsub.length_le
          rw [List.length_cons] at hcount
          omega)
        rfl ((List.pairwise_cons.mp hsorted).2.sublist hsub) (by omega)
        (by omega) (fun other hother => by
          obtain ⟨h₁, h₂, -⟩ := hentries other (List.mem_cons_of_mem _ (hsub.mem hother))
          have hless := hbehind other hother
          have hmore : ((extendRun page slot rest).1 + 1) * PAGE ≤ other.1 * PAGE :=
            Nat.mul_le_mul_right _ hless
          exact ⟨h₁, h₂, by omega⟩)
      have hgap : List.replicate (start - position) 0 =
          (List.range' position (start - position)).map (byteOf view ((page, slot) :: rest)) := by
        refine (List.eq_replicate_iff.mpr ⟨by simp, fun b hb => ?_⟩).symm
        obtain ⟨i, hi, rfl⟩ := List.mem_map.mp hb
        rw [List.mem_range'_1] at hi
        refine byteOf_none fun other hother hsame => ?_
        have hcell := Nat.div_mul_le_self i PAGE
        rw [← hsame] at hcell
        have hge : page * PAGE ≤ other.1 * PAGE := Nat.mul_le_mul_right _ (by
          rcases List.mem_cons.mp hother with rfl | hother
          · exact Nat.le_refl _
          · exact Nat.le_of_lt ((List.pairwise_cons.mp hsorted).1 other hother))
        omega
      have hcopy : ((List.range (last - start)).map fun k =>
            view (slot * PAGE + start % PAGE + k)) =
          (List.range' start (last - start)).map (byteOf view ((page, slot) :: rest)) := by
        rw [List.range'_eq_map_range, List.map_map]
        refine List.map_congr_left fun k hk => ?_
        rw [List.mem_range] at hk
        rw [Function.comp_apply]
        have hstartPage : start / PAGE = page := page_of (by omega) (by omega)
        have hstartDiv := Nat.div_add_mod' start PAGE
        rw [hstartPage] at hstartDiv
        have hcell := Nat.div_add_mod' (start + k) PAGE
        have hlower : page ≤ (start + k) / PAGE := by
          rw [← hstartPage]
          exact Nat.div_le_div_right (Nat.le_add_right _ _)
        have hupper : (start + k) / PAGE < (extendRun page slot rest).1 + 1 := by
          rw [Nat.div_lt_iff_lt_mul hpos]
          omega
        obtain ⟨j, hj⟩ := Nat.exists_eq_add_of_le hlower
        have hmem := hrun j (by omega)
        rw [byteOf_mem hsorted hmem hj]
        rw [hj, Nat.add_mul] at hcell
        dsimp only
        rw [Nat.add_mul]
        exact congrArg view (by omega)
      have htail : (List.range' last (stop - last)).map (byteOf view (extendRun page slot rest).2) =
          (List.range' last (stop - last)).map (byteOf view ((page, slot) :: rest)) := by
        refine List.map_congr_left fun i hi => ?_
        rw [List.mem_range'_1] at hi
        have hcell : (extendRun page slot rest).1 + 1 ≤ i / PAGE := by
          rw [Nat.le_div_iff_mul_le hpos]
          omega
        have hsortedRest := (List.pairwise_cons.mp hsorted).2.sublist hsub
        by_cases hfound : ∃ other ∈ (extendRun page slot rest).2, other.1 = i / PAGE
        · obtain ⟨other, hother, hsame⟩ := hfound
          rw [byteOf_mem hsortedRest hother hsame.symm,
            byteOf_mem hsorted (List.mem_cons_of_mem _ (hsub.mem hother)) hsame.symm]
        have hnone : ∀ other ∈ (extendRun page slot rest).2, other.1 ≠ i / PAGE :=
          fun other hother hsame => hfound ⟨other, hother, hsame⟩
        rw [byteOf_none hnone, byteOf_none]
        intro other hother
        rcases List.mem_cons.mp hother with rfl | hother
        · exact Nat.ne_of_lt (by dsimp only; omega)
        · rcases hcover other hother with hbehind' | hrun'
          · exact hnone other hbehind'
          · exact Nat.ne_of_lt (by omega)
      rw [hgap, hcopy, hrest, htail, ← List.map_append, ← List.map_append]
      refine congrArg _ ?_
      rw [show stop - position = (start - position) + ((last - start) + (stop - last)) by omega,
        ← List.range'_append_1, ← List.range'_append_1, List.append_assoc]
      rw [show position + (start - position) = start by omega,
        show start + (last - start) = last by omega]

/-- The last byte of a hole, and the first two of the page behind it. -/
example : (List.range' 4095 3).map (byteOf (fun i => .ofNat 8 (i + 1)) [(1, 0)]) = [0, 1, 2] := by
  decide +kernel

theorem readParts_eq {s : State} {id : Nat} {n : Node} (hn : s.nodes[id]? = some n)
    (view : Nat → BitVec 8) (stop count : Nat) {position : Nat} (hcount : stop - position = count) :
    readParts n.pages view stop position =
      (List.range' position (stop - position)).map (content s.slot view id) := by
  induction count using Nat.strongRecOn generalizing position with
  | _ count ih =>
    rw [readParts]
    by_cases hless : position < stop
    · rw [if_pos hless]
      have hpos : 0 < PAGE := by decide
      have hmod := Nat.mod_lt position hpos
      have hdiv := Nat.div_add_mod' position PAGE
      generalize hpart : min (PAGE - position % PAGE) (stop - position) = part
      have hrest := ih (stop - (position + part)) (by omega) rfl
      have hbyte : ∀ k, k < part → content s.slot view id (position + k) =
          match n.pages[position / PAGE]? with
          | some slot => view (slot * PAGE + position % PAGE + k)
          | none => 0 := by
        intro k hk
        have hpage : (position + k) / PAGE = position / PAGE := page_of (by omega) (by omega)
        have hcell := Nat.div_add_mod' (position + k) PAGE
        rw [hpage] at hcell
        rw [content, State.slot, hn, Option.bind_some, hpage]
        cases n.pages[position / PAGE]? with
        | none => rfl
        | some slot => exact congrArg view (by omega)
      have hfirst : (match n.pages[position / PAGE]? with
          | some slot => (List.range part).map fun k => view (slot * PAGE + position % PAGE + k)
          | none => List.replicate part 0) =
          (List.range' position part).map (content s.slot view id) := by
        rw [List.range'_eq_map_range, List.map_map]
        have hmap : (List.range part).map (content s.slot view id ∘ fun k => position + k) =
            (List.range part).map fun k => match n.pages[position / PAGE]? with
              | some slot => view (slot * PAGE + position % PAGE + k)
              | none => 0 :=
          List.map_congr_left fun k hk => hbyte k (List.mem_range.mp hk)
        rw [hmap]
        cases n.pages[position / PAGE]? with
        | some slot => rfl
        | none => simp
      dsimp only
      rw [hfirst, hrest, ← List.map_append]
      refine congrArg _ ?_
      rw [show stop - position = part + (stop - (position + part)) by omega, ← List.range'_append_1]
    · rw [if_neg hless, Nat.sub_eq_zero_of_le (Nat.le_of_not_lt hless)]
      rfl

theorem read_eq {s : State} {id : Nat} {n : Node} (hn : s.nodes[id]? = some n)
    (optimized : Bool) (view : Nat → BitVec 8) (position count : Nat) :
    n.read optimized view position count =
      (List.range' position count).map (content s.slot view id) := by
  unfold Node.read
  cases optimized with
  | false =>
    rw [Bool.not_false, if_pos rfl, readParts_eq hn view _ _ rfl, Nat.add_sub_cancel_left]
  | true =>
    rw [Bool.not_true, if_neg Bool.false_ne_true]
    by_cases hzero : count = 0
    · rw [if_pos hzero, hzero]
      rfl
    rw [if_neg hzero]
    have hpos : 0 < PAGE := by decide
    have hmem : ∀ page slot, (page, slot) ∈ (entriesFrom n.pages (position / PAGE)).filter
        (fun entry => decide (entry.1 ≤ (position + count - 1) / PAGE)) ↔
          n.pages[page]? = some slot ∧ position / PAGE ≤ page ∧
            page ≤ (position + count - 1) / PAGE := by
      intro page slot
      rw [List.mem_filter, mem_entriesFrom, decide_eq_true_eq, and_assoc]
    have hsorted := (entries_sorted n.pages (position / PAGE)).filter
      fun entry => decide (entry.1 ≤ (position + count - 1) / PAGE)
    have hread := readRuns_eq view position (position + count) _ rfl
      hsorted (Nat.le_refl position) (Nat.le_add_right _ _) (fun entry hentry => by
        obtain ⟨page, slot⟩ := entry
        obtain ⟨-, hlow, hhigh⟩ := (hmem page slot).mp hentry
        have hstart := Nat.div_add_mod' position PAGE
        have hmod := Nat.mod_lt position hpos
        have hmulLow : position / PAGE * PAGE ≤ page * PAGE := Nat.mul_le_mul_right _ hlow
        have hmulHigh := (Nat.le_div_iff_mul_le hpos).mp hhigh
        have hsucc : (page + 1) * PAGE = page * PAGE + PAGE := Nat.succ_mul _ _
        dsimp only
        exact ⟨by omega, by omega, by omega⟩)
    rw [hread, Nat.add_sub_cancel_left]
    refine List.map_congr_left fun i hi => ?_
    rw [List.mem_range'_1] at hi
    have hlow : position / PAGE ≤ i / PAGE := Nat.div_le_div_right hi.1
    have hhigh : i / PAGE ≤ (position + count - 1) / PAGE := Nat.div_le_div_right (by omega)
    rw [content, State.slot, hn, Option.bind_some]
    cases hx : n.pages[i / PAGE]? with
    | some x =>
      exact byteOf_mem hsorted ((hmem (i / PAGE) x).mpr ⟨hx, hlow, hhigh⟩) rfl
    | none =>
      refine byteOf_none fun entry hentry hsame => ?_
      obtain ⟨page, slot⟩ := entry
      obtain ⟨hpage, -⟩ := (hmem page slot).mp hentry
      have hsame' : page = i / PAGE := hsame
      rw [hsame', hx] at hpage
      cases hpage

/-! ## Seeking -/

/-- The position is in a page that is mapped. -/
def Node.mapped (n : Node) (position : Nat) : Prop := (n.pages[position / PAGE]?).isSome = true

/-- `SEEK_DATA` finds the least position in a mapped page, when there is one in the file. -/
theorem seekData_spec (n : Node) (start : Nat) :
    match n.seekData start with
    | .ok next => IsLeast {p | start ≤ p ∧ p < n.size ∧ n.mapped p} next
    | .error e => e = ENXIO ∧ ∀ p, start ≤ p → p < n.size → ¬ n.mapped p := by
  have hpos : 0 < PAGE := by decide
  unfold Node.seekData
  by_cases hend : start ≥ n.size
  · rw [if_pos hend]
    exact ⟨rfl, fun p hstart hless => by omega⟩
  rw [if_neg hend]
  cases hhead : (entriesFrom n.pages (start / PAGE)).head? with
  | none =>
    refine ⟨rfl, fun p hstart _ hmapped => ?_⟩
    obtain ⟨x, hx⟩ := Option.isSome_iff_exists.mp hmapped
    have hmem := mem_entriesFrom.mpr ⟨hx, Nat.div_le_div_right hstart⟩
    rw [List.head?_eq_none_iff.mp hhead] at hmem
    cases hmem
  | some entry =>
    obtain ⟨page, slot⟩ := entry
    obtain ⟨rest, hlist⟩ := List.head?_eq_some_iff.mp hhead
    obtain ⟨hx, hpage⟩ := mem_entriesFrom.mp (hlist ▸ List.mem_cons_self :
      (page, slot) ∈ entriesFrom n.pages (start / PAGE))
    have hstartDiv := Nat.div_add_mod' start PAGE
    have hstartMod := Nat.mod_lt start hpos
    have hmulPage : start / PAGE * PAGE ≤ page * PAGE := Nat.mul_le_mul_right _ hpage
    dsimp only
    generalize hnext : (if page = start / PAGE then start else page * PAGE) = next
    have hfacts : start ≤ next ∧ next / PAGE = page ∧
        ∀ p, start ≤ p → page ≤ p / PAGE → next ≤ p := by
      rw [← hnext]
      by_cases hsame : page = start / PAGE
      · rw [if_pos hsame]
        exact ⟨Nat.le_refl _, hsame.symm, fun p hp _ => hp⟩
      rw [if_neg hsame]
      have hmore : (start / PAGE + 1) * PAGE ≤ page * PAGE :=
        Nat.mul_le_mul_right _ (by omega)
      rw [Nat.succ_mul] at hmore
      exact ⟨by omega, Nat.mul_div_cancel _ hpos, fun p _ hp => (Nat.le_div_iff_mul_le hpos).mp hp⟩
    have hleast : ∀ p, start ≤ p → n.mapped p → next ≤ p := by
      intro p hp hmapped
      obtain ⟨y, hy⟩ := Option.isSome_iff_exists.mp hmapped
      have hmem := mem_entriesFrom.mpr ⟨hy, Nat.div_le_div_right (c := PAGE) hp⟩
      refine hfacts.2.2 p hp ?_
      rw [hlist] at hmem
      rcases List.mem_cons.mp hmem with heq | hmem
      · exact Nat.le_of_eq (congrArg Prod.fst heq).symm
      · have hsorted := entries_sorted n.pages (start / PAGE)
        rw [hlist] at hsorted
        exact Nat.le_of_lt ((List.pairwise_cons.mp hsorted).1 _ hmem)
    by_cases hlarge : next ≥ n.size
    · rw [if_pos hlarge]
      exact ⟨rfl, fun p hp hless hmapped => by
        have := hleast p hp hmapped
        omega⟩
    · rw [if_neg hlarge]
      refine ⟨⟨hfacts.1, by omega, ?_⟩, fun p hp => hleast p hp.1 hp.2.2⟩
      show (n.pages[next / PAGE]?).isSome = true
      rw [hfacts.2.1, hx]
      rfl

/-- The pages before the hole follow each other, and the hole has none. -/
theorem holeFrom_spec (pages : Table Nat) (entries : List (Nat × Nat)) (hole : Nat)
    (hsorted : entries.Pairwise fun a b => a.1 < b.1)
    (hentries : ∀ page slot, (page, slot) ∈ entries ↔ pages[page]? = some slot ∧ hole ≤ page) :
    hole ≤ holeFrom hole entries ∧ pages[holeFrom hole entries]? = none ∧
      ∀ page, hole ≤ page → page < holeFrom hole entries → (pages[page]?).isSome = true := by
  induction entries generalizing hole with
  | nil =>
    refine ⟨Nat.le_refl _, ?_, fun page hlow hhigh => ?_⟩
    · show pages[hole]? = none
      cases hx : pages[hole]? with
      | none => rfl
      | some x => cases (hentries hole x).mpr ⟨hx, Nat.le_refl _⟩
    · have hhigh' : page < hole := hhigh
      omega
  | cons entry rest ih =>
    obtain ⟨page, slot⟩ := entry
    obtain ⟨hfirst, hrest⟩ := List.pairwise_cons.mp hsorted
    obtain ⟨hpage, hlow⟩ := (hentries page slot).mp List.mem_cons_self
    unfold holeFrom
    by_cases heq : page = hole
    · rw [if_pos heq]
      have hnext : ∀ p s, (p, s) ∈ rest ↔ pages[p]? = some s ∧ hole + 1 ≤ p := by
        intro p s
        constructor
        · intro hmem
          have hless : page < p := hfirst (p, s) hmem
          exact ⟨((hentries p s).mp (List.mem_cons_of_mem _ hmem)).1, by omega⟩
        · rintro ⟨hp, hge⟩
          rcases List.mem_cons.mp ((hentries p s).mpr ⟨hp, by omega⟩) with hsame | hmem
          · have hkey : p = page := congrArg Prod.fst hsame
            omega
          · exact hmem
      obtain ⟨hle, hnone, hall⟩ := ih (hole + 1) hrest hnext
      refine ⟨by omega, hnone, fun p hp hless => ?_⟩
      by_cases hsame : p = hole
      · rw [hsame, ← heq, hpage]
        rfl
      · exact hall p (by omega) hless
    · rw [if_neg heq]
      refine ⟨Nat.le_refl _, ?_, fun p hp hless => by omega⟩
      cases hx : pages[hole]? with
      | none => rfl
      | some x =>
        rcases List.mem_cons.mp ((hentries hole x).mpr ⟨hx, Nat.le_refl _⟩) with hsame | hmem
        · exact absurd (congrArg Prod.fst hsame).symm heq
        · have hless : page < hole := hfirst (hole, x) hmem
          omega

/-- `SEEK_HOLE` finds the least position that is in no mapped page, or the end of the file. -/
theorem seekHole_spec (n : Node) (start : Nat) :
    match n.seekHole start with
    | .ok next => IsLeast {p | start ≤ p ∧ (p = n.size ∨ ¬ n.mapped p)} next ∧ next ≤ n.size
    | .error e => e = ENXIO ∧ n.size ≤ start := by
  have hpos : 0 < PAGE := by decide
  unfold Node.seekHole
  by_cases hend : start ≥ n.size
  · rw [if_pos hend]
    exact ⟨rfl, hend⟩
  rw [if_neg hend]
  by_cases hhole : (n.pages[start / PAGE]?).isNone = true
  · rw [if_pos hhole]
    refine ⟨⟨⟨Nat.le_refl _, .inr fun hmapped => ?_⟩, fun p hp => hp.1⟩, by omega⟩
    rw [Node.mapped, Option.isNone_iff_eq_none.mp hhole] at hmapped
    cases hmapped
  rw [if_neg hhole]
  obtain ⟨hle, hnone, hall⟩ := holeFrom_spec n.pages _ (start / PAGE)
    (entries_sorted n.pages (start / PAGE)) fun page slot => mem_entriesFrom
  generalize hfrom : holeFrom (start / PAGE) (entriesFrom n.pages (start / PAGE)) = hole at *
  have hstartDiv := Nat.div_add_mod' start PAGE
  have hstartMod := Nat.mod_lt start hpos
  have hless : start / PAGE < hole := by
    rcases Nat.lt_or_eq_of_le hle with hlt | heq
    · exact hlt
    · rw [← heq] at hnone
      exact absurd (Option.isNone_iff_eq_none.mpr hnone) hhole
  have hmul : (start / PAGE + 1) * PAGE ≤ hole * PAGE := Nat.mul_le_mul_right _ hless
  rw [Nat.succ_mul] at hmul
  dsimp only
  refine ⟨⟨⟨by omega, ?_⟩, ?_⟩, Nat.min_le_right _ _⟩
  · by_cases hsize : n.size ≤ hole * PAGE
    · exact .inl (Nat.min_eq_right hsize)
    · refine .inr fun hmapped => ?_
      rw [Nat.min_eq_left (by omega), Node.mapped, Nat.mul_div_cancel _ hpos, hnone] at hmapped
      cases hmapped
  · rintro p ⟨hp, hor⟩
    by_contra hsmall
    have hp' : p < hole * PAGE ∧ p < n.size := by omega
    rcases hor with heq | hnot
    · omega
    · exact hnot (hall _ (Nat.div_le_div_right hp) ((Nat.div_lt_iff_lt_mul hpos).mpr hp'.1))

end Kinakaze.Tmpfs
