import Mathlib.Data.List.Sort
import Kinakaze.FdSlots.Table

/-!
# The pages of the descriptor table

What each operation does to the page of every descriptor, and from that to its
entry and its reservation.
-/

namespace Kinakaze.FdSlots

open Library.Bitmap

variable {FdEntry : Type} {fd g : Nat}

theorem slot_eq_iff (h : g / WIDTH = fd / WIDTH) : slot g = slot fd ↔ g = fd := by
  simp only [slot, Fin.mk.injEq, WIDTH] at *
  omega

theorem leaf_eq_iff (h : g / BRANCH_SIZE = fd / BRANCH_SIZE) :
    leaf g = leaf fd ↔ g / WIDTH = fd / WIDTH := by
  simp only [leaf, Fin.mk.injEq, WIDTH, BRANCH_SIZE] at *
  omega

theorem branch_eq (h : g / WIDTH = fd / WIDTH) : g / BRANCH_SIZE = fd / BRANCH_SIZE := by
  simp only [WIDTH, BRANCH_SIZE] at *
  omega

theorem page_eq (s : Slots FdEntry) (fd : Nat) :
    s.page fd = s.branches[fd / BRANCH_SIZE]?.join.bind fun branch => branch.pages (leaf fd) := by
  unfold Slots.page
  cases s.branches[fd / BRANCH_SIZE]? with
  | none => rfl
  | some branch => cases branch <;> rfl

theorem page_congr (s : Slots FdEntry) (h : g / WIDTH = fd / WIDTH) : s.page g = s.page fd := by
  have hleaf : leaf g = leaf fd := (leaf_eq_iff (branch_eq h)).mpr h
  rw [page_eq, page_eq, branch_eq h, hleaf]

theorem getElem?_join_resized (l : List (Option (Branch FdEntry))) (n i : Nat) :
    (l ++ List.replicate n none)[i]?.join = l[i]?.join := by
  rw [List.getElem?_append]
  by_cases hi : i < l.length
  · rw [if_pos hi]
  · rw [if_neg hi, List.getElem?_eq_none (by omega : l.length ≤ i), List.getElem?_replicate]
    by_cases hn : i - l.length < n <;> simp [hn]

theorem getElem?_join_rdropWhile (l : List (Option (Branch FdEntry))) (i : Nat) :
    (l.rdropWhile fun b => b.isNone)[i]?.join = l[i]?.join := by
  induction l using List.reverseRecOn with
  | nil => simp
  | append_singleton l b ih =>
    cases b with
    | some b => rw [List.rdropWhile_concat_neg _ _ _ (by simp)]
    | none =>
      rw [List.rdropWhile_concat_pos _ _ _ (by simp), ih]
      exact (getElem?_join_resized l 1 i).symm

theorem page_putPage (s : Slots FdEntry) (fd : Nat) (page : Page FdEntry) (g : Nat) :
    (s.putPage fd page).page g = if g / WIDTH = fd / WIDTH then some page else s.page g := by
  rw [page_eq, page_eq]
  simp only [Slots.putPage, getElem?_join_resized, List.getElem?_set]
  by_cases hbranch : fd / BRANCH_SIZE = g / BRANCH_SIZE
  · have hlen : g / BRANCH_SIZE < (s.branches ++ List.replicate
        (fd / BRANCH_SIZE + 1 - s.branches.length) none).length := by
      rw [List.length_append, List.length_replicate]
      omega
    rw [if_pos hbranch, hbranch, if_pos (hbranch ▸ hlen)]
    simp only [Option.join_some, Option.bind_some, Function.update_apply, leaf_eq_iff hbranch.symm]
    by_cases hpage : g / WIDTH = fd / WIDTH
    · rw [if_pos hpage, if_pos hpage]
    · rw [if_neg hpage, if_neg hpage]
      cases s.branches[g / BRANCH_SIZE]?.join <;> rfl
  · have hpage : ¬g / WIDTH = fd / WIDTH := fun h => hbranch (branch_eq h).symm
    rw [if_neg hbranch, if_neg hpage, getElem?_join_resized]

/-- A page that is neither used nor reserved has nothing to keep. -/
def Page.kept (page : Page FdEntry) : Bool := decide (page.used ||| page.reserved ≠ 0)

theorem freePage_pages (branch : Branch FdEntry) (i j : Fin WIDTH) : (branch.freePage i).pages j =
      if j = i then (branch.pages i).filter Page.kept else branch.pages j := by
  unfold Branch.freePage
  cases hpage : branch.pages i with
  | none =>
    rw [Option.any_none, if_neg (by simp), Option.filter_none]
    split
    · rename_i hj
      rw [hj, hpage]
    · rfl
  | some page =>
    rw [Option.any_some]
    by_cases hzero : page.used ||| page.reserved = 0
    · have hkept : page.kept = false := by simpa [Page.kept] using hzero
      rw [if_pos (decide_eq_true hzero), Option.filter_some, hkept]
      exact Function.update_apply _ _ _ _
    have hkept : page.kept = true := decide_eq_true hzero
    rw [if_neg (by simpa using hzero), Option.filter_some, hkept]
    split
    · rename_i hj
      rw [hj, hpage]
      rfl
    · rfl

variable {s s' : Slots FdEntry}

theorem page_setBranch {branch : Branch FdEntry}
    (hbranch : s.branches[fd / BRANCH_SIZE]?.join = some branch) (b : Option (Branch FdEntry))
    (g : Nat) :
    ((s.branches.set (fd / BRANCH_SIZE) b)[g / BRANCH_SIZE]?.join.bind
        fun branch => branch.pages (leaf g)) =
      if fd / BRANCH_SIZE = g / BRANCH_SIZE then b.bind fun branch => branch.pages (leaf g)
      else s.page g := by
  have hlen : fd / BRANCH_SIZE < s.branches.length := by
    by_contra hge
    rw [List.getElem?_eq_none (by omega)] at hbranch
    cases hbranch
  rw [List.getElem?_set]
  by_cases hg : fd / BRANCH_SIZE = g / BRANCH_SIZE
  · rw [if_pos hg, if_pos hg, if_pos (hg ▸ hlen), Option.join_some]
  · rw [if_neg hg, if_neg hg, page_eq]

theorem page_reclaim (s : Slots FdEntry) (fd g : Nat) : (s.reclaim fd).page g =
      if g / WIDTH = fd / WIDTH then (s.page fd).filter Page.kept else s.page g := by
  unfold Slots.reclaim
  cases hbranch : s.branches[fd / BRANCH_SIZE]?.join with
  | none =>
    have hnone : s.page fd = none := by
      rw [page_eq, hbranch]
      rfl
    by_cases hpage : g / WIDTH = fd / WIDTH
    · simp only [if_pos hpage, page_congr s hpage, hnone, Option.filter_none]
    · simp only [if_neg hpage]
  | some branch =>
    have hfd : s.page fd = branch.pages (leaf fd) := by
      rw [page_eq, hbranch]
      rfl
    -- either way the branch holds the pages that are left
    have hleft : ∀ b : Option (Branch FdEntry), (b.bind fun branch => branch.pages (leaf g)) =
          (branch.freePage (leaf fd)).pages (leaf g) →
        ((s.branches.set (fd / BRANCH_SIZE) b)[g / BRANCH_SIZE]?.join.bind
          fun branch => branch.pages (leaf g)) =
        if g / WIDTH = fd / WIDTH then (s.page fd).filter Page.kept else s.page g := by
      intro b hb
      rw [page_setBranch hbranch, hb, freePage_pages, hfd]
      by_cases hg : fd / BRANCH_SIZE = g / BRANCH_SIZE
      · rw [if_pos hg, page_eq s g, ← hg, hbranch]
        simp only [leaf_eq_iff hg.symm, Option.bind_some]
      · have hpage : ¬g / WIDTH = fd / WIDTH := fun h => hg (branch_eq h).symm
        rw [if_neg hg, if_neg hpage]
    dsimp only
    by_cases hall : (List.finRange WIDTH).all
        (fun i => ((branch.freePage (leaf fd)).pages i).isNone) = true
    · rw [if_pos hall, page_eq]
      simp only [getElem?_join_rdropWhile]
      apply hleft
      have hnone := List.all_eq_true.mp hall (leaf g) (List.mem_finRange _)
      exact (Option.isNone_iff_eq_none.mp hnone).symm
    · rw [if_neg hall, page_eq]
      exact hleft _ rfl

@[simp] theorem page_advance (s : Slots FdEntry) (fd g : Nat) :
    (s.advance fd).page g = s.page g := by
  unfold Slots.advance
  split <;> rfl

@[simp] theorem page_lower (s : Slots FdEntry) (fd : Nat) (other : BitVec WIDTH) (g : Nat) :
    (s.lower fd other).page g = s.page g := by
  unfold Slots.lower
  split <;> rfl

theorem lower_firstFree_le (s : Slots FdEntry) (fd : Nat) (other : BitVec WIDTH) :
    (s.lower fd other).firstFree ≤ s.firstFree ∧
      (other.getLsbD (fd % WIDTH) = false → (s.lower fd other).firstFree ≤ fd) := by
  have hbit := and_bit_eq_zero_iff (Nat.mod_lt fd (by decide : 0 < WIDTH)) other
  unfold Slots.lower
  split
  · exact ⟨Nat.min_le_left _ _, fun _ => Nat.min_le_right _ _⟩
  · rename_i hne
    exact ⟨Nat.le_refl _, fun hclear => absurd (hbit.mpr hclear) hne⟩

theorem reclaim_firstFree (s : Slots FdEntry) (fd : Nat) :
    (s.reclaim fd).firstFree = s.firstFree := by
  unfold Slots.reclaim
  cases s.branches[fd / BRANCH_SIZE]?.join with
  | none => rfl
  | some branch =>
    dsimp only
    split <;> rfl

theorem page_clearReservations (s : Slots FdEntry) (g : Nat) :
    s.clearReservations.page g = (s.page g).bind Page.cleared := by
  rw [page_eq, page_eq]
  simp only [Slots.clearReservations, List.getElem?_map]
  cases s.branches[g / BRANCH_SIZE]? with
  | none => rfl
  | some branch => cases branch <;> rfl

/-- What the table holds for a descriptor. -/
def Slots.entryAt (s : Slots FdEntry) (fd : Nat) : Option FdEntry :=
  (s.page fd).bind fun page => page.entries (slot fd)

def Slots.reservedAt (s : Slots FdEntry) (fd : Nat) : Bool :=
  (s.page fd).any fun page => page.reserved.getLsbD (fd % WIDTH)

/-- Neither occupied nor reserved. -/
def Slots.Free (s : Slots FdEntry) (fd : Nat) : Prop :=
  s.entryAt fd = none ∧ s.reservedAt fd = false

theorem used_getLsbD (page : Page FdEntry) (fd : Nat) :
    page.used.getLsbD (fd % WIDTH) = (page.entries (slot fd)).isSome :=
  page.used_exact (slot fd)

theorem get_eq (s : Slots FdEntry) (fd : Nat) :
    s.get fd = if fd < MAX_FDS then some (s.entryAt fd) else none := by
  unfold Slots.get Slots.entryAt
  by_cases hfd : fd < MAX_FDS
  · rw [if_neg (by omega), if_pos hfd]
    cases s.page fd <;> rfl
  · rw [if_pos (by omega), if_neg hfd]

theorem isReserved_eq (s : Slots FdEntry) (fd : Nat) : s.isReserved fd = s.reservedAt fd := by
  unfold Slots.isReserved Slots.reservedAt
  cases s.page fd with
  | none => rfl
  | some page =>
    have hbit := and_bit_eq_zero_iff (Nat.mod_lt fd (by decide : 0 < WIDTH)) page.reserved
    cases hres : page.reserved.getLsbD (fd % WIDTH) with
    | false => simp [hbit.mpr hres, hres]
    | true =>
      have hne : page.reserved &&& bit WIDTH (fd % WIDTH) ≠ 0 := by
        intro h
        rw [hbit.mp h] at hres
        cases hres
      simpa [hres] using hne

variable {page : Page FdEntry}

theorem free_iff_of_page (h : s.page fd = some page) :
    s.Free fd ↔ (page.used ||| page.reserved).getLsbD (fd % WIDTH) = false := by
  unfold Slots.Free Slots.entryAt Slots.reservedAt
  rw [h, BitVec.getLsbD_or, used_getLsbD]
  simp [Option.isSome_eq_false_iff]

section

variable (hpage : ∀ g, s'.page g = if g / WIDTH = fd / WIDTH then some page else s.page g)
include hpage

theorem entryAt_of_page {v : Option FdEntry} (hentries : page.entries =
      Function.update ((s.page fd).getD Page.empty).entries (slot fd) v) (g : Nat) :
    s'.entryAt g = if g = fd then v else s.entryAt g := by
  unfold Slots.entryAt
  rw [hpage]
  by_cases hg : g / WIDTH = fd / WIDTH
  · rw [if_pos hg, Option.bind_some, hentries, Function.update_apply, page_congr s hg]
    simp only [slot_eq_iff hg]
    cases s.page fd <;> rfl
  · have hne : ¬g = fd := fun h => hg (h ▸ rfl)
    rw [if_neg hg, if_neg hne]

theorem reservedAt_of_page {v : Bool}
    (hreserved : ∀ j, j < WIDTH → page.reserved.getLsbD j = if j = fd % WIDTH then v
      else ((s.page fd).getD Page.empty).reserved.getLsbD j) (g : Nat) :
    s'.reservedAt g = if g = fd then v else s.reservedAt g := by
  unfold Slots.reservedAt
  rw [hpage]
  by_cases hg : g / WIDTH = fd / WIDTH
  · have hmod : g % WIDTH = fd % WIDTH ↔ g = fd := by
      simp only [WIDTH] at *
      omega
    rw [if_pos hg, Option.any_some, hreserved _ (Nat.mod_lt g (by decide)), page_congr s hg]
    simp only [hmod]
    cases s.page fd with
    | none => simp [Page.empty]
    | some page => rfl
  · have hne : ¬g = fd := fun h => hg (h ▸ rfl)
    rw [if_neg hg, if_neg hne]

theorem entryAt_same (hentries : page.entries = ((s.page fd).getD Page.empty).entries) (g : Nat) :
    s'.entryAt g = s.entryAt g := by
  unfold Slots.entryAt
  rw [hpage]
  split
  · rename_i hg
    rw [Option.bind_some, hentries, page_congr s hg]
    cases s.page fd <;> rfl
  · rfl

theorem reservedAt_same
    (hreserved : page.reserved = ((s.page fd).getD Page.empty).reserved) (g : Nat) :
    s'.reservedAt g = s.reservedAt g := by
  unfold Slots.reservedAt
  rw [hpage]
  split
  · rename_i hg
    rw [Option.any_some, hreserved, page_congr s hg]
    cases s.page fd with
    | none => simp [Page.empty]
    | some page => rfl
  · rfl

end

theorem not_kept (h : page.kept = false) (fd : Nat) :
    page.entries (slot fd) = none ∧ page.reserved.getLsbD (fd % WIDTH) = false := by
  have hzero : page.used ||| page.reserved = 0 := by simpa [Page.kept] using h
  have hbit := (eq_zero_iff _).mp hzero (fd % WIDTH) (Nat.mod_lt fd (by decide))
  rw [BitVec.getLsbD_or, Bool.or_eq_false_iff, used_getLsbD] at hbit
  exact ⟨Option.isSome_eq_false_iff.mp hbit.1 |> Option.isNone_iff_eq_none.mp, hbit.2⟩

theorem reclaim_same (s : Slots FdEntry) (fd g : Nat) :
    (s.reclaim fd).entryAt g = s.entryAt g ∧ (s.reclaim fd).reservedAt g = s.reservedAt g := by
  unfold Slots.entryAt Slots.reservedAt
  rw [page_reclaim]
  by_cases hg : g / WIDTH = fd / WIDTH
  · rw [if_pos hg, ← page_congr s hg]
    cases hpage : s.page g with
    | none => exact ⟨rfl, rfl⟩
    | some page =>
      cases hkept : page.kept with
      | true => simp [Option.filter, hkept]
      | false =>
        obtain ⟨hentry, hreserved⟩ := not_kept hkept g
        simp [Option.filter, hkept, hentry, hreserved]
  · rw [if_neg hg]
    exact ⟨rfl, rfl⟩

end Kinakaze.FdSlots
