import Kinakaze.FdSlots.Pages

/-!
# What the descriptor table stands for

A record gives each descriptor its entry and holds the reserved descriptors.
Every run of operations on the table does what the same run does on the record.
-/

namespace Kinakaze.FdSlots

open Library.Bitmap

variable {FdEntry : Type}

/-- The entries and the reserved descriptors. -/
structure Record (FdEntry : Type) where
  entries : Nat → Option FdEntry
  reserved : Finset Nat

inductive Op (FdEntry : Type)
  | insert (fd : Nat) (entry : FdEntry)
  | remove (fd : Nat)
  | reserve (fd : Nat)
  | unreserve (fd : Nat)
  | clearReservations

def Slots.apply (s : Slots FdEntry) : Op FdEntry → Option (Slots FdEntry)
  | .insert fd entry => s.insert fd entry
  | .remove fd => some (s.remove fd).2
  | .reserve fd => s.reserve fd
  | .unreserve fd => some (s.unreserve fd)
  | .clearReservations => some s.clearReservations

def Slots.run (ops : List (Op FdEntry)) : Option (Slots FdEntry) :=
  ops.foldlM Slots.apply Slots.default

/-- Neither occupied nor reserved. -/
def Record.Free (r : Record FdEntry) (fd : Nat) : Prop := r.entries fd = none ∧ fd ∉ r.reserved

instance (r : Record FdEntry) (fd : Nat) : Decidable (r.Free fd) :=
  inferInstanceAs (Decidable (_ ∧ _))

/-- An operation on a number that the table does not admit has no result. -/
def Record.apply (r : Record FdEntry) : Op FdEntry → Option (Record FdEntry)
  | .insert fd entry =>
    if fd < MAX_FDS then some { r with entries := Function.update r.entries fd (some entry) }
    else none
  | .remove fd => some { r with entries := Function.update r.entries fd none }
  | .reserve fd =>
    if fd < MAX_FDS ∧ r.Free fd then some { r with reserved := insert fd r.reserved } else none
  | .unreserve fd => some { r with reserved := r.reserved.erase fd }
  | .clearReservations => some { r with reserved := ∅ }

def Record.run (ops : List (Op FdEntry)) : Option (Record FdEntry) :=
  ops.foldlM Record.apply ⟨fun _ => none, ∅⟩

/-- The table holds the record, and no number below `firstFree` is free. -/
structure Holds (s : Slots FdEntry) (r : Record FdEntry) : Prop where
  bounded : ∀ fd, MAX_FDS ≤ fd → s.page fd = none
  entries : ∀ fd, s.entryAt fd = r.entries fd
  reserved : ∀ fd, s.reservedAt fd = decide (fd ∈ r.reserved)
  firstFree : ∀ fd, fd < s.firstFree → ¬s.Free fd

variable {s s' : Slots FdEntry} {r : Record FdEntry}

theorem Holds.free_iff (h : Holds s r) (fd : Nat) : s.Free fd ↔ r.Free fd := by
  unfold Slots.Free Record.Free
  rw [h.entries, h.reserved, decide_eq_false_iff_not]

variable {fd floor : Nat}

theorem free_of_page_none (h : s.page fd = none) : s.Free fd := by
  unfold Slots.Free Slots.entryAt Slots.reservedAt
  rw [h]
  exact ⟨rfl, rfl⟩

variable {page : Page FdEntry}

theorem free_iff_available (h : s.page floor = some page) {k : Nat} (hk : k / WIDTH = floor / WIDTH)
    :
    s.Free k ↔ (~~~(page.used ||| page.reserved)).getLsbD (k % WIDTH) = true := by
  rw [free_iff_of_page ((page_congr s hk).trans h), BitVec.getLsbD_not,
    decide_eq_true (Nat.mod_lt k (by decide))]
  simp

theorem first_available (h : s.page floor = some page)
    (hne : fromBit (~~~(page.used ||| page.reserved)) (floor % WIDTH) ≠ 0)
    (hfd : fd = floor / WIDTH * WIDTH +
      (fromBit (~~~(page.used ||| page.reserved)) (floor % WIDTH)).ctz.toNat) :
    floor ≤ fd ∧ s.Free fd ∧ ∀ k, floor ≤ k → k < fd → ¬s.Free k := by
  obtain ⟨hlt, hge, hset, hleast⟩ := ctz_fromBit hne
  have hpage : fd / WIDTH = floor / WIDTH := by
    simp only [WIDTH] at *
    omega
  have hslot : fd % WIDTH =
      (fromBit (~~~(page.used ||| page.reserved)) (floor % WIDTH)).ctz.toNat := by
    simp only [WIDTH] at *
    omega
  refine ⟨by simp only [WIDTH] at *; omega, ?_, ?_⟩
  · rw [free_iff_available h hpage, hslot]
    exact hset
  · intro k hfloor hk hfree
    have hsame : k / WIDTH = floor / WIDTH := by
      simp only [WIDTH] at *
      omega
    rw [free_iff_available h hsame, hleast (k % WIDTH)
      (by simp only [WIDTH] at *; omega) (by simp only [WIDTH] at *; omega)] at hfree
    cases hfree

theorem findFree_go (s : Slots FdEntry) (floor ceiling : Nat) :
    LeastIn s.Free floor ceiling (Slots.findFree.go s floor ceiling) := by
  fun_induction Slots.findFree.go s floor ceiling with
  | case1 floor hlt hnone =>
    exact ⟨Nat.le_refl _, hlt, free_of_page_none hnone, fun k hge hk => absurd hk (by omega)⟩
  | case2 floor hlt page hpage available hne fd hceiling =>
    obtain ⟨hge, hfree, hleast⟩ := first_available hpage hne rfl
    exact ⟨hge, hceiling, hfree, hleast⟩
  | case3 floor hlt page hpage available hne fd hceiling =>
    obtain ⟨hge, hfree, hleast⟩ := first_available hpage hne rfl
    intro k hfloor hk
    exact hleast k hfloor (Nat.lt_of_lt_of_le hk (Nat.le_of_not_lt hceiling))
  | case4 floor hlt page hpage available hzero ih =>
    apply ih.lower
    · simp only [WIDTH]
      omega
    · intro k hfloor hk hfree
      have hsame : k / WIDTH = floor / WIDTH := by
        simp only [WIDTH] at *
        omega
      rw [free_iff_available hpage hsame,
        fromBit_eq_zero (Decidable.not_not.mp hzero) (Nat.mod_lt k (by decide))
          (by simp only [WIDTH] at *; omega)] at hfree
      cases hfree
  | case5 floor hge =>
    intro k hfloor hk
    omega

theorem findFree_least (s : Slots FdEntry) (floor ceiling : Nat) :
    LeastIn (fun fd => fd < MAX_FDS ∧ s.Free fd) floor ceiling (s.findFree floor ceiling) := by
  have h := findFree_go s floor (min ceiling MAX_FDS)
  unfold Slots.findFree
  cases hgo : Slots.findFree.go s floor (min ceiling MAX_FDS) with
  | none =>
    rw [hgo] at h
    intro k hfloor hk hfree
    exact h k hfloor (by omega) hfree.2
  | some n =>
    rw [hgo] at h
    obtain ⟨hge, hlt, hfree, hleast⟩ := h
    exact ⟨hge, by omega, ⟨by omega, hfree⟩, fun k hfloor hk hk' => hleast k hfloor hk hk'.2⟩

/-- Moving `firstFree` to the next free number skips none. -/
theorem findFree_getD (s : Slots FdEntry) (hbelow : ∀ fd, fd < floor → ¬s.Free fd)
    (fd : Nat) (hfd : fd < (s.findFree floor MAX_FDS).getD MAX_FDS) : ¬s.Free fd := by
  have h := findFree_least s floor MAX_FDS
  by_cases hfloor : fd < floor
  · exact hbelow fd hfloor
  · cases hfind : s.findFree floor MAX_FDS with
    | none =>
      rw [hfind] at h hfd
      exact fun hfree => h fd (by omega) hfd ⟨hfd, hfree⟩
    | some n =>
      rw [hfind] at h hfd
      obtain ⟨-, hlt, -, hleast⟩ := h
      have hn : fd < n := hfd
      exact fun hfree => hleast fd (by omega) hn ⟨by omega, hfree⟩

theorem page_eq_fields (h : ∀ fd, s'.page fd = s.page fd) :
    s'.entryAt = s.entryAt ∧ s'.reservedAt = s.reservedAt := by
  constructor
  · funext fd
    unfold Slots.entryAt
    rw [h]
  · funext fd
    unfold Slots.reservedAt
    rw [h]

theorem free_congr (hentry : s'.entryAt = s.entryAt)
    (hreserved : s'.reservedAt = s.reservedAt) (fd : Nat) : s'.Free fd ↔ s.Free fd := by
  unfold Slots.Free
  rw [hentry, hreserved]

/-- A table whose `firstFree` is moved on when its descriptor is taken. -/
theorem Holds.advance (hbounded : ∀ g, MAX_FDS ≤ g → s'.page g = none)
    (hentries : ∀ g, s'.entryAt g = r.entries g)
    (hreserved : ∀ g, s'.reservedAt g = decide (g ∈ r.reserved))
    (hfirst : ∀ g, g < s.firstFree → ¬s.Free g) (hsame : s'.firstFree = s.firstFree)
    (htaken : ¬s'.Free fd) (hkeep : ∀ g, ¬s.Free g → ¬s'.Free g) : Holds (s'.advance fd) r := by
  obtain ⟨hentryAt, hreservedAt⟩ := page_eq_fields (page_advance s' fd)
  refine ⟨?_, ?_, ?_, ?_⟩
  · intro g hg
    rw [page_advance, hbounded g hg]
  · intro g
    rw [hentryAt, hentries]
  · intro g
    rw [hreservedAt, hreserved]
  · intro g hg
    rw [free_congr hentryAt hreservedAt]
    unfold Slots.advance at hg
    split at hg
    · rename_i hfd
      apply findFree_getD s' _ g hg
      intro k hk
      by_cases hkfd : k = fd
      · rw [hkfd]
        exact htaken
      · exact hkeep k (hfirst k (by omega))
    · exact hkeep g (hfirst g (hsame ▸ hg))

/-- A table whose `firstFree` is lowered when its descriptor becomes free. -/
theorem Holds.release (hbounded : ∀ g, MAX_FDS ≤ g → s'.page g = none)
    (hentries : ∀ g, s'.entryAt g = r.entries g)
    (hreserved : ∀ g, s'.reservedAt g = decide (g ∈ r.reserved))
    (hfirst : ∀ g, g < s.firstFree → ¬s.Free g) (hother : ∀ g, g ≠ fd → s'.Free g → s.Free g)
    (hlow : s'.firstFree ≤ s.firstFree ∧ (s'.Free fd → s'.firstFree ≤ fd)) :
    Holds (s'.reclaim fd) r := by
  refine ⟨?_, ?_, ?_, ?_⟩
  · intro g hg
    rw [page_reclaim]
    split
    · rename_i hpage
      rw [← page_congr s' hpage, hbounded g hg, Option.filter_none]
    · exact hbounded g hg
  · intro g
    rw [(reclaim_same s' fd g).1, hentries]
  · intro g
    rw [(reclaim_same s' fd g).2, hreserved]
  · intro g hg hfree
    have hfree' : s'.Free g := by
      unfold Slots.Free at hfree
      rwa [(reclaim_same s' fd g).1, (reclaim_same s' fd g).2] at hfree
    rw [reclaim_firstFree] at hg
    by_cases hgfd : g = fd
    · subst hgfd
      exact absurd (hlow.2 hfree') (by omega)
    · exact hfirst g (by omega) (hother g hgfd hfree')

theorem putPage_bounded (hbounded : ∀ g, MAX_FDS ≤ g → s.page g = none) (hfd : fd < MAX_FDS)
    (page : Page FdEntry) (g : Nat) (hg : MAX_FDS ≤ g) : (s.putPage fd page).page g = none := by
  have hpage : ¬g / WIDTH = fd / WIDTH := by
    simp only [WIDTH, MAX_FDS] at *
    omega
  rw [page_putPage, if_neg hpage, hbounded g hg]

theorem lt_of_page (hbounded : ∀ g, MAX_FDS ≤ g → s.page g = none) (h : s.page fd = some page) :
    fd < MAX_FDS := by
  by_contra hge
  rw [hbounded fd (by omega)] at h
  cases h

theorem Holds.inserted (h : Holds s r) (hfd : fd < MAX_FDS) (entry : FdEntry) :
    Holds ((s.putPage fd (((s.page fd).getD Page.empty).occupy fd entry)).advance fd)
      { r with entries := Function.update r.entries fd (some entry) } := by
  have hpage := page_putPage s fd (((s.page fd).getD Page.empty).occupy fd entry)
  have hentryAt := entryAt_of_page hpage rfl
  have hreservedAt := reservedAt_same hpage rfl
  apply Holds.advance (putPage_bounded h.bounded hfd _) _ _ h.firstFree rfl
  · intro hfree
    have hnone := hfree.1
    rw [hentryAt, if_pos rfl] at hnone
    cases hnone
  · intro g hg hfree
    have hentry := hfree.1
    rw [hentryAt] at hentry
    split at hentry
    · cases hentry
    · exact hg ⟨hentry, hreservedAt g ▸ hfree.2⟩
  · intro g
    rw [hentryAt, h.entries]
    exact (Function.update_apply r.entries fd (some entry) g).symm
  · intro g
    rw [hreservedAt, h.reserved]

theorem Holds.setReserved (h : Holds s r) (hfd : fd < MAX_FDS)
    (hentries : page.entries = ((s.page fd).getD Page.empty).entries) (hreserved : page.reserved =
      ((s.page fd).getD Page.empty).reserved ||| bit WIDTH (fd % WIDTH)) :
    Holds ((s.putPage fd page).advance fd) { r with reserved := insert fd r.reserved } := by
  have hpage := page_putPage s fd page
  have hentryAt := entryAt_same hpage hentries
  have hreservedAt : ∀ g, (s.putPage fd page).reservedAt g =
      if g = fd then true else s.reservedAt g := by
    apply reservedAt_of_page hpage
    intro j _
    rw [hreserved, getLsbD_set (Nat.mod_lt fd (by decide))]
    by_cases hj : j = fd % WIDTH <;> simp [hj]
  apply Holds.advance (putPage_bounded h.bounded hfd _) _ _ h.firstFree rfl
  · intro hfree
    have hclear := hfree.2
    rw [hreservedAt, if_pos rfl] at hclear
    cases hclear
  · intro g hg hfree
    have hclear := hfree.2
    rw [hreservedAt] at hclear
    split at hclear
    · cases hclear
    · exact hg ⟨hentryAt g ▸ hfree.1, hclear⟩
  · intro g
    rw [hentryAt, h.entries]
  · intro g
    rw [hreservedAt, h.reserved]
    by_cases hg : g = fd <;> simp [hg]

/-- What a removal or an unreservation leaves. -/
theorem Holds.lowered {r' : Record FdEntry} (h : Holds s r) {old : Page FdEntry}
    (hfd : s.page fd = some old) {other : BitVec WIDTH}
    (hentries : ∀ g, (s.putPage fd page).entryAt g = r'.entries g)
    (hreserved : ∀ g, (s.putPage fd page).reservedAt g = decide (g ∈ r'.reserved))
    (hother : ∀ g, g ≠ fd → r'.Free g → r.Free g)
    (hopen : (s.putPage fd page).Free fd → other.getLsbD (fd % WIDTH) = false) :
    Holds (((s.putPage fd page).lower fd other).reclaim fd) r' := by
  obtain ⟨hentryAt, hreservedAt⟩ := page_eq_fields (page_lower (s.putPage fd page) fd other)
  have hfree := free_congr hentryAt hreservedAt
  obtain ⟨hle, hlow⟩ := lower_firstFree_le (s.putPage fd page) fd other
  apply Holds.release (s := s) _ _ _ h.firstFree
  · intro g hg hfree'
    rw [hfree] at hfree'
    rw [h.free_iff]
    apply hother g hg
    exact ⟨hentries g ▸ hfree'.1, of_decide_eq_false (hreserved g ▸ hfree'.2)⟩
  · exact ⟨hle, fun hfree' => hlow (hopen ((hfree fd).mp hfree'))⟩
  · intro g hg
    rw [page_lower, putPage_bounded h.bounded (lt_of_page h.bounded hfd) page g hg]
  · intro g
    rw [hentryAt, hentries]
  · intro g
    rw [hreservedAt, hreserved]

theorem Holds.removed (h : Holds s r) (fd : Nat) : (s.remove fd).1 = r.entries fd ∧
      Holds (s.remove fd).2 { r with entries := Function.update r.entries fd none } := by
  have habsent : s.entryAt fd = none →
      Holds s { r with entries := Function.update r.entries fd none } := by
    intro hnone
    rw [h.entries] at hnone
    rw [← hnone, Function.update_eq_self]
    exact h
  rw [← h.entries]
  unfold Slots.remove
  cases hfd : s.page fd with
  | none =>
    have hnone : s.entryAt fd = none := by
      unfold Slots.entryAt
      rw [hfd]
      rfl
    exact ⟨hnone.symm ▸ rfl, habsent hnone⟩
  | some page =>
    have hat : s.entryAt fd = page.entries (slot fd) := by
      unfold Slots.entryAt
      rw [hfd]
      rfl
    dsimp only
    cases hentry : page.entries (slot fd) with
    | none => exact ⟨(hat.trans hentry).symm, habsent (hat.trans hentry)⟩
    | some entry =>
      refine ⟨(hat.trans hentry).symm, ?_⟩
      have hpage := page_putPage s fd (page.vacate fd)
      have hentryAt := entryAt_of_page hpage (v := none) (by rw [hfd]; rfl)
      have hreservedAt := reservedAt_same hpage (by rw [hfd]; rfl)
      apply h.lowered hfd
      · intro g
        rw [hentryAt, h.entries]
        exact (Function.update_apply r.entries fd none g).symm
      · intro g
        rw [hreservedAt, h.reserved]
      · intro g hg hfree
        exact ⟨(Function.update_of_ne hg none r.entries) ▸ hfree.1, hfree.2⟩
      · intro hfree
        have hclear := hfree.2
        rw [hreservedAt] at hclear
        unfold Slots.reservedAt at hclear
        rw [hfd] at hclear
        exact hclear

theorem Holds.unreserved (h : Holds s r) (fd : Nat) :
    Holds (s.unreserve fd) { r with reserved := r.reserved.erase fd } := by
  unfold Slots.unreserve
  cases hfd : s.page fd with
  | none =>
    have hout : fd ∉ r.reserved := by
      have hclear := h.reserved fd
      unfold Slots.reservedAt at hclear
      rw [hfd] at hclear
      exact of_decide_eq_false hclear.symm
    rw [Finset.erase_eq_of_notMem hout]
    exact h
  | some page =>
    dsimp only
    have hpage := page_putPage s fd
      { page with reserved := page.reserved &&& ~~~bit WIDTH (fd % WIDTH) }
    have hentryAt := entryAt_same hpage (by rw [hfd]; rfl)
    have hreservedAt := reservedAt_of_page hpage (v := false) (by
      intro j hj
      rw [hfd, getLsbD_clear (Nat.mod_lt fd (by decide)) _ hj]
      by_cases hjfd : j = fd % WIDTH
      · simp [hjfd]
      · simp [hjfd])
    apply h.lowered hfd
    · intro g
      rw [hentryAt, h.entries]
    · intro g
      rw [hreservedAt, h.reserved]
      by_cases hg : g = fd <;> simp [hg]
    · intro g hg hfree
      exact ⟨hfree.1, fun hmem => hfree.2 (Finset.mem_erase.mpr ⟨hg, hmem⟩)⟩
    · intro hfree
      have hnone := hfree.1
      rw [hentryAt] at hnone
      unfold Slots.entryAt at hnone
      rw [hfd, Option.bind_some] at hnone
      rw [used_getLsbD, hnone]
      rfl

theorem Holds.cleared (h : Holds s r) : Holds s.clearReservations { r with reserved := ∅ } := by
  have hpage := page_clearReservations s
  refine ⟨?_, ?_, ?_, ?_⟩
  · intro fd hfd
    rw [hpage, h.bounded fd hfd]
    rfl
  · intro fd
    rw [← h.entries]
    unfold Slots.entryAt
    rw [hpage]
    cases s.page fd with
    | none => rfl
    | some page =>
      rw [Option.bind_some, Option.bind_some, Page.cleared]
      split
      · rename_i hzero
        have hnone := used_getLsbD page fd
        rw [(eq_zero_iff _).mp hzero _ (Nat.mod_lt fd (by decide))] at hnone
        exact (Option.isNone_iff_eq_none.mp (Option.isSome_eq_false_iff.mp hnone.symm)).symm
      · rfl
  · intro fd
    unfold Slots.reservedAt
    rw [hpage]
    cases s.page fd with
    | none => rfl
    | some page =>
      rw [Option.bind_some, Page.cleared]
      split
      · rfl
      · simp
  · exact fun fd hfd => findFree_getD { s with branches := s.clearReservations.branches }
      (fun _ h => absurd h (Nat.not_lt_zero _)) fd hfd

theorem mem_pageEnumerated (page : Page FdEntry) (base fd : Nat) (e : Option FdEntry) :
    (fd, e) ∈ page.enumerated base ↔ ∃ k : Fin WIDTH, base + k.val = fd ∧ page.entries k = e := by
  simp [Page.enumerated]

theorem mem_branchEnumerated (branch : Branch FdEntry) (base fd : Nat) (e : Option FdEntry) :
    (fd, e) ∈ branch.enumerated base ↔ ∃ (j k : Fin WIDTH) (p : Page FdEntry),
      branch.pages j = some p ∧ base + j.val * WIDTH + k.val = fd ∧ p.entries k = e := by
  unfold Branch.enumerated
  rw [List.mem_flatMap]
  constructor
  · rintro ⟨j, -, hmem⟩
    cases hp : branch.pages j with
    | none =>
      rw [hp] at hmem
      cases hmem
    | some p =>
      rw [hp] at hmem
      obtain ⟨k, hk, he⟩ := (mem_pageEnumerated p _ fd e).mp hmem
      exact ⟨j, k, p, hp, hk, he⟩
  · rintro ⟨j, k, p, hp, hk, he⟩
    refine ⟨j, List.mem_finRange _, ?_⟩
    rw [hp]
    exact (mem_pageEnumerated p _ fd e).mpr ⟨k, hk, he⟩

theorem mem_enumerated (s : Slots FdEntry) (fd : Nat) (e : Option FdEntry) :
    (fd, e) ∈ s.enumerated ↔ ∃ p, s.page fd = some p ∧ p.entries (slot fd) = e := by
  have hnumber : ∀ (i : Nat) (j k : Fin WIDTH), i * BRANCH_SIZE + j.val * WIDTH + k.val = fd ↔
      i = fd / BRANCH_SIZE ∧ j = leaf fd ∧ k = slot fd := by
    intro i j k
    have hj := j.isLt
    have hk := k.isLt
    simp only [leaf, slot, Fin.ext_iff, WIDTH, BRANCH_SIZE] at *
    omega
  unfold Slots.enumerated
  simp only [List.mem_flatMap, Prod.exists, List.mk_mem_zipIdx_iff_getElem?]
  constructor
  · rintro ⟨branch, i, hbranch, hmem⟩
    cases branch with
    | none => cases hmem
    | some b =>
      obtain ⟨j, k, p, hp, hk, he⟩ := (mem_branchEnumerated b _ fd e).mp hmem
      obtain ⟨rfl, rfl, rfl⟩ := (hnumber i j k).mp hk
      refine ⟨p, ?_, he⟩
      rw [page_eq, hbranch]
      exact hp
  · rintro ⟨p, hpage, he⟩
    rw [page_eq] at hpage
    obtain ⟨b, hb, hp⟩ := Option.bind_eq_some_iff.mp hpage
    refine ⟨some b, fd / BRANCH_SIZE, Option.join_eq_some_iff.mp hb, ?_⟩
    exact (mem_branchEnumerated b _ fd e).mpr
      ⟨leaf fd, slot fd, p, hp, (hnumber _ _ _).mpr ⟨rfl, rfl, rfl⟩, he⟩

theorem finRange_ascends : (List.finRange WIDTH).Pairwise fun a b => a.val < b.val :=
  List.pairwise_lt_finRange WIDTH

theorem branchEnumerated_ascends (branch : Branch FdEntry) (base : Nat) :
    (branch.enumerated base).Pairwise fun a b => a.1 < b.1 := by
  unfold Branch.enumerated
  apply ascends_flatMap WIDTH base finRange_ascends
  · intro j _ x hx
    cases hp : branch.pages j with
    | none =>
      rw [hp] at hx
      cases hx
    | some p =>
      rw [hp] at hx
      obtain ⟨k, hk, -⟩ := (mem_pageEnumerated p _ x.1 x.2).mp hx
      have hlt := k.isLt
      simp only [WIDTH] at *
      omega
  · intro j _
    cases branch.pages j with
    | none => exact List.Pairwise.nil
    | some p =>
      apply List.pairwise_map.mpr
      apply finRange_ascends.imp
      intro a b hab
      exact Nat.add_lt_add_left hab _

theorem enumerated_ascends (s : Slots FdEntry) : s.enumerated.Pairwise fun a b => a.1 < b.1 := by
  have hbranches : s.branches.zipIdx.Pairwise fun a b => a.2 < b.2 := by
    rw [← List.pairwise_map, List.zipIdx_map_snd]
    exact List.pairwise_lt_range'
  unfold Slots.enumerated
  apply ascends_flatMap BRANCH_SIZE 0 hbranches
  · rintro ⟨branch, i⟩ _ x hx
    cases branch with
    | none => cases hx
    | some b =>
      obtain ⟨j, k, p, -, hk, -⟩ := (mem_branchEnumerated b _ x.1 x.2).mp hx
      have hj := j.isLt
      have hlt := k.isLt
      simp only [WIDTH, BRANCH_SIZE] at *
      omega
  · rintro ⟨branch, i⟩ _
    cases branch with
    | none => exact List.Pairwise.nil
    | some b => exact branchEnumerated_ascends b _

theorem assert_iff (s : Slots FdEntry) (fd : Nat) :
    (((s.page fd).getD Page.empty).used ||| ((s.page fd).getD Page.empty).reserved) &&&
      bit WIDTH (fd % WIDTH) = 0 ↔ s.Free fd := by
  rw [and_bit_eq_zero_iff (Nat.mod_lt fd (by decide))]
  cases hpage : s.page fd with
  | none => exact ⟨fun _ => free_of_page_none hpage, fun _ => by simp [Page.empty]⟩
  | some page => exact (free_iff_of_page hpage).symm

theorem Holds.step (h : Holds s r)
    (op : Op FdEntry) : Option.Rel Holds (s.apply op) (r.apply op) := by
  cases op with
  | insert fd entry =>
    simp only [Slots.apply, Record.apply, Slots.insert, Slots.ensurePage]
    by_cases hfd : fd < MAX_FDS
    · rw [if_pos hfd, if_pos hfd]
      exact .some (h.inserted hfd entry)
    · rw [if_neg hfd, if_neg hfd]
      exact .none
  | remove fd => exact .some (h.removed fd).2
  | reserve fd =>
    simp only [Slots.apply, Record.apply, Slots.reserve, Slots.ensurePage]
    by_cases hfd : fd < MAX_FDS
    · rw [if_pos hfd]
      simp only [Option.bind_eq_bind, Option.bind_some]
      by_cases hfree : r.Free fd
      · rw [if_pos ((assert_iff s fd).mpr ((h.free_iff fd).mpr hfree)), if_pos ⟨hfd, hfree⟩]
        exact .some (h.setReserved hfd rfl rfl)
      · rw [if_neg (fun hassert => hfree ((h.free_iff fd).mp ((assert_iff s fd).mp hassert))),
          if_neg (fun hand => hfree hand.2)]
        exact .none
    · rw [if_neg hfd, if_neg (fun hand => hfd hand.1)]
      exact .none
  | unreserve fd => exact .some (h.unreserved fd)
  | clearReservations => exact .some h.cleared

theorem mem_occupied (s : Slots FdEntry) (x : Nat × FdEntry) :
    x ∈ s.occupied ↔ s.entryAt x.1 = some x.2 := by
  unfold Slots.occupied Slots.entryAt
  rw [List.mem_filterMap]
  constructor
  · rintro ⟨⟨fd, e⟩, hmem, he⟩
    obtain ⟨entry, rfl, rfl⟩ := Option.map_eq_some_iff.mp he
    obtain ⟨p, hp, hentry⟩ := (mem_enumerated s fd (some entry)).mp hmem
    rw [hp]
    exact hentry
  · intro h
    obtain ⟨p, hp, hentry⟩ := Option.bind_eq_some_iff.mp h
    exact ⟨(x.1, some x.2), (mem_enumerated s x.1 (some x.2)).mpr ⟨p, hp, hentry⟩, rfl⟩

theorem ascends_filterMap {α : Type} {l : List (Nat × α)} {f : Nat × α → Option (Nat × FdEntry)}
    (hl : l.Pairwise fun a b => a.1 < b.1) (hf : ∀ a b, f a = some b → b.1 = a.1) :
    (l.filterMap f).Pairwise fun a b => a.1 < b.1 := by
  apply List.pairwise_filterMap.mpr
  apply hl.imp
  intro a b hab x hx y hy
  rw [hf a x hx, hf b y hy]
  exact hab

theorem Holds.occupied_eq (h : Holds s r) : s.occupied =
      (List.range MAX_FDS).filterMap fun fd => (r.entries fd).map fun entry => (fd, entry) := by
  have hanti : Std.Antisymm fun a b : Nat × FdEntry => a.1 < b.1 :=
    ⟨fun a b hab hba => absurd hba (Nat.lt_asymm hab)⟩
  have hirrefl : Std.Irrefl fun a b : Nat × FdEntry => a.1 < b.1 := ⟨fun a => Nat.lt_irrefl a.1⟩
  apply List.Pairwise.eq_of_mem_iff (r := fun a b : Nat × FdEntry => a.1 < b.1)
  · apply ascends_filterMap (enumerated_ascends s)
    rintro ⟨fd, e⟩ x hx
    obtain ⟨entry, -, rfl⟩ := Option.map_eq_some_iff.mp hx
    rfl
  · apply List.pairwise_filterMap.mpr
    apply List.pairwise_lt_range.imp
    intro a b hab x hx y hy
    obtain ⟨entry, -, rfl⟩ := Option.map_eq_some_iff.mp hx
    obtain ⟨entry', -, rfl⟩ := Option.map_eq_some_iff.mp hy
    exact hab
  · intro x
    rw [mem_occupied, h.entries, List.mem_filterMap]
    constructor
    · intro hx
      have hfd : x.1 < MAX_FDS := by
        by_contra hge
        rw [← h.entries, Slots.entryAt, h.bounded x.1 (by omega)] at hx
        cases hx
      exact ⟨x.1, List.mem_range.mpr hfd, by rw [hx]; rfl⟩
    · rintro ⟨fd, -, hx⟩
      obtain ⟨entry, hentry, rfl⟩ := Option.map_eq_some_iff.mp hx
      exact hentry

theorem Holds.default : Holds (Slots.default : Slots FdEntry) ⟨fun _ => none, ∅⟩ := by
  refine ⟨?_, ?_, ?_, ?_⟩
  · intro fd _
    rfl
  · intro fd
    rfl
  · intro fd
    rfl
  · intro fd hfd
    exact absurd hfd (Nat.not_lt_zero fd)

theorem Holds.run (h : Holds s r) (ops : List (Op FdEntry)) :
    Option.Rel Holds (ops.foldlM Slots.apply s) (ops.foldlM Record.apply r) := by
  induction ops generalizing s r with
  | nil => exact .some h
  | cons op ops ih =>
    simp only [List.foldlM_cons]
    have hstep := h.step op
    cases hs : s.apply op with
    | none =>
      rw [hs] at hstep
      cases hr : r.apply op with
      | none => exact .none
      | some r' =>
        rw [hr] at hstep
        cases hstep
    | some s' =>
      rw [hs] at hstep
      cases hr : r.apply op with
      | none =>
        rw [hr] at hstep
        cases hstep
      | some r' =>
        rw [hr] at hstep
        cases hstep with
        | some h' => exact ih h'

/-- The table answers every question as the record does. -/
structure Answers (s : Slots FdEntry) (r : Record FdEntry) : Prop where
  get : ∀ fd, s.get fd = if fd < MAX_FDS then some (r.entries fd) else none
  removed : ∀ fd, (s.remove fd).1 = r.entries fd
  isReserved : ∀ fd, s.isReserved fd = decide (fd ∈ r.reserved)
  occupied : s.occupied =
    (List.range MAX_FDS).filterMap fun fd => (r.entries fd).map fun entry => (fd, entry)
  firstFreeBetween : ∀ floor ceiling,
    LeastIn (fun fd => fd < MAX_FDS ∧ r.Free fd) floor ceiling (s.firstFreeBetween floor ceiling)

theorem Holds.answers (h : Holds s r) : Answers s r := by
  refine ⟨?_, ?_, ?_, ?_, ?_⟩
  · intro fd
    rw [get_eq, h.entries]
  · intro fd
    exact (h.removed fd).1
  · intro fd
    rw [isReserved_eq, h.reserved]
  · exact h.occupied_eq
  · intro floor ceiling
    have hleast := findFree_least s (max floor s.firstFree) ceiling
    simp only [h.free_iff] at hleast
    apply hleast.lower (Nat.le_max_left _ _)
    intro fd hfloor hfd hfree
    exact h.firstFree fd (by omega) ((h.free_iff fd).mpr hfree.2)

/-- Every sequence of operations, on any numbers, ends as it ends on the record, and a
table that is left answers as the record that is left. -/
theorem run_answers (ops : List (Op FdEntry)) :
    Option.Rel Answers (Slots.run ops) (Record.run ops) := by
  have h : Option.Rel Holds (Slots.run ops) (Record.run ops) := Holds.default.run ops
  revert h
  generalize Slots.run ops = s
  generalize Record.run ops = r
  intro h
  cases h with
  | none => exact .none
  | some hr => exact .some hr.answers

end Kinakaze.FdSlots
