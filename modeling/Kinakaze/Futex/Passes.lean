import Kinakaze.Futex.Agreement
import Kinakaze.Futex.Queue
import Mathlib.Data.List.Perm.Basic

/-!
# What a pass does to the table

A pass goes through a front part of the table, takes or drops every row there that
concerns it, and leaves the rest.  The guarded sections are made of passes, so each
of them splits the table into the rows that stay and those it wakes, moves and drops.
-/

namespace Kinakaze.Futex

variable {W : Type} {n : Native W} {o : Order W} {table : List Record}

/-- A pass over `front ++ back` that stopped in front of `back`, having started with
`start` rows. -/
structure Swept (o : Order W) (start : Nat) (front back : List Record) (p : Pass W) : Prop where
  kept : p.table = front.filter o.passes ++ back
  removed : (front.filter fun r => !o.passes r).Perm (p.taken ++ p.dropped)
  taken : p.taken.Sublist (front.filter fun r => !o.passes r)
  ordinary : ∀ r ∈ front, o.passes r = false → r.specialWait = false
  gone : ∀ r ∈ p.dropped, ∃ w : W, (o.attempt r w).1 = .gone
  counted : ∀ m : Nat, p.result = .ok m → m = start + p.taken.length
  ended : ∀ m : Nat, p.result = .ok m → m < o.count → back = []

variable {p : Pass W} {start count : Nat}

theorem Swept.stop (hkept : p.table = table) (htaken : p.taken = []) (hdropped : p.dropped = [])
    (hresult : ∀ m : Nat, p.result = .ok m → m = start ∧ (m < o.count → table = [])) :
    Swept o start [] table p where
  kept := hkept
  removed := by simp [htaken, hdropped]
  taken := by simp [htaken]
  ordinary := nofun
  gone := by simp [hdropped]
  counted m hm := by simp [htaken, (hresult m hm).1]
  ended m hm := (hresult m hm).2

theorem sweep_spec (o : Order W) (table : List Record) (start : Nat) (w : W) :
    ∃ front back : List Record, table = front ++ back ∧
      Swept o start front back (sweep o table start w) := by
  induction table generalizing start w with
  | nil =>
    refine ⟨[], [], rfl, .stop rfl rfl rfl fun m hm => ?_⟩
    exact ⟨(Except.ok.inj hm).symm, fun _ => rfl⟩
  | cons r rows ih =>
    rw [sweep]
    by_cases hcount : start < o.count
    · rw [if_pos hcount]
      by_cases hpasses : o.passes r = true
      · rw [if_pos hpasses]
        obtain ⟨front, back, rfl, h⟩ := ih start w
        refine ⟨r :: front, back, rfl, ?_, ?_, ?_, ?_, h.gone, h.counted, h.ended⟩
        · simp [Pass.keep, h.kept, hpasses]
        · simpa [Pass.keep, hpasses] using h.removed
        · simpa [Pass.keep, hpasses] using h.taken
        · intro x hx hfails
          rcases List.mem_cons.mp hx with rfl | hx
          · rw [hpasses] at hfails
            cases hfails
          · exact h.ordinary x hx hfails
      rw [if_neg hpasses]
      by_cases hspecial : r.specialWait = true
      · rw [if_pos hspecial]
        exact ⟨[], r :: rows, rfl, .stop rfl rfl rfl fun _ hm => by cases hm⟩
      rw [if_neg hspecial]
      have hordinary : ∀ (front : List Record), (∀ x ∈ front, o.passes x = false →
          x.specialWait = false) → ∀ x ∈ r :: front, o.passes x = false →
          x.specialWait = false := by
        intro front hfront x hx hfails
        rcases List.mem_cons.mp hx with rfl | hx
        · simpa using hspecial
        · exact hfront x hx hfails
      cases hattempt : o.attempt r w with
      | mk verdict w' =>
        cases verdict with
        | failed e => exact ⟨[], r :: rows, rfl, .stop rfl rfl rfl fun _ hm => by cases hm⟩
        | gone =>
          obtain ⟨front, back, rfl, h⟩ := ih start w'
          refine ⟨r :: front, back, rfl, ?_, ?_, ?_, hordinary front h.ordinary, ?_,
            h.counted, h.ended⟩
          · simp [Pass.drop, h.kept, hpasses]
          · simpa [Pass.drop, hpasses] using (h.removed.cons r).trans List.perm_middle.symm
          · simpa [Pass.drop, hpasses] using h.taken.cons r
          · intro x hx
            rcases List.mem_cons.mp hx with rfl | hx
            · exact ⟨w, by rw [hattempt]⟩
            · exact h.gone x hx
        | taken =>
          obtain ⟨front, back, rfl, h⟩ := ih (start + 1) w'
          refine ⟨r :: front, back, rfl, ?_, ?_, ?_, hordinary front h.ordinary, h.gone,
            fun m hm => ?_, h.ended⟩
          · simp [Pass.take, h.kept, hpasses]
          · simpa [Pass.take, hpasses] using h.removed.cons r
          · simpa [Pass.take, hpasses] using h.taken.cons_cons r
          · have hm' := h.counted m hm
            simp only [Pass.take, List.length_cons]
            omega
    · rw [if_neg hcount]
      refine ⟨[], r :: rows, rfl, .stop rfl rfl rfl fun m hm => ?_⟩
      obtain rfl := Except.ok.inj hm
      exact ⟨rfl, fun hlt => absurd hlt hcount⟩

variable {front back : List Record} {r : Record}

section

variable (h : Swept o start front back p)
include h

theorem Swept.concerned (hr : r ∈ p.taken ++ p.dropped) :
    r ∈ front ∧ o.passes r = false ∧ r.specialWait = false := by
  have hmem := h.removed.mem_iff.mpr hr
  simp only [List.mem_filter, Bool.not_eq_true'] at hmem
  exact ⟨hmem.1, hmem.2, h.ordinary r hmem.1 hmem.2⟩

theorem Swept.removes (hr : r ∈ front) (hof : o.passes r = false) : r ∈ p.taken ++ p.dropped :=
  h.removed.mem_iff.mp (List.mem_filter.mpr ⟨hr, by simp [hof]⟩)

theorem Swept.split : (front ++ back).Perm (p.table ++ (p.taken ++ p.dropped)) := by
  have hfront : front.Perm (front.filter o.passes ++ front.filter fun r => !o.passes r) :=
    (List.filter_append_perm o.passes front).symm
  calc front ++ back
      |>.Perm (front.filter o.passes ++ front.filter (fun r => !o.passes r) ++ back) :=
        hfront.append_right back
    _ |>.Perm (front.filter o.passes ++ back ++ front.filter fun r => !o.passes r) := by
        rw [List.append_assoc, List.append_assoc]
        exact List.perm_append_comm.append_left _
    _ |>.Perm (p.table ++ (p.taken ++ p.dropped)) := by
        rw [h.kept]
        exact h.removed.append_left _

theorem Swept.table_eq (hnone : (p.dropped ++ p.taken).isEmpty = true) :
    p.table = front ++ back := by
  have hempty : p.dropped = [] ∧ p.taken = [] := by simpa using hnone
  have hremoved := h.removed
  rw [hempty.1, hempty.2, List.append_nil, List.perm_nil, List.filter_eq_nil_iff] at hremoved
  rw [h.kept, List.filter_eq_self.mpr fun r hr => by simpa using hremoved r hr]

theorem Swept.kept_sublist : p.table.Sublist (front ++ back) := by
  rw [h.kept]
  exact List.filter_sublist.append (List.Sublist.refl _)

/-- Among the rows that are ordered by `stamp`, the earlier are removed first. -/
theorem Swept.first {stamp : Record → Nat}
    (hsorted : ((front ++ back).filter Record.ordinary).Pairwise fun a b => stamp a < stamp b)
    {x y : Record} (hx : x ∈ front ++ back) (hxo : x.ordinary = true) (hof : o.passes x = false)
    (hy : y ∈ p.taken) (hyo : y.ordinary = true) (hlt : stamp x < stamp y) :
    x ∈ p.taken ++ p.dropped := by
  rcases List.mem_append.mp hx with hfront | hback
  · exact h.removes hfront hof
  obtain ⟨hyfront, -⟩ := h.concerned (List.mem_append_left _ hy)
  rw [List.filter_append, List.pairwise_append] at hsorted
  have hgt := hsorted.2.2 y (List.mem_filter.mpr ⟨hyfront, hyo⟩) x
    (List.mem_filter.mpr ⟨hback, hxo⟩)
  omega

end

/-! ## Sections -/

/-- How a guarded section treats the table: the rows it wakes, moves and drops are
ordinary waiters, and of those of one key the earlier are woken before the later. -/
structure Section.Lawful (n : Native W) (target : Key) (bitset : BitVec 32)
    (table : List Record) (s : Section W) : Prop where
  parts : ∃ kept : List Record, kept.Sublist table ∧
    s.table = kept ++ s.moved.map (fun r => { r with key := target }) ∧
    table.Perm (kept ++ (s.woken ++ s.moved ++ s.dropped))
  ordinary : ∀ r ∈ s.woken ++ s.moved ++ s.dropped, r.ordinary = true
  order : s.moved.Sublist table
  gone : ∀ r ∈ s.dropped, ∃ w : W, (n.dead r w).1 = true
  counted : ∀ m : Nat, s.result = .ok m → m = s.woken.length + s.moved.length
  matched : ∀ r ∈ s.woken, r.bitset &&& bitset ≠ 0
  first : ∀ stamp : Record → Nat,
    ((table.filter Record.ordinary).Pairwise fun a b => stamp a < stamp b) →
    ∀ x ∈ table, ∀ y ∈ s.woken, x.ordinary = true → x.key = y.key →
      x.bitset &&& bitset ≠ 0 → stamp x < stamp y → x ∈ s.woken ++ s.dropped

/-- A section that answers less than `count` leaves no waiter of the key behind. -/
def Section.Exhausts (key : Key) (count : Nat) (bitset : BitVec 32) (table : List Record)
    (s : Section W) : Prop :=
  ∀ m : Nat, s.result = .ok m → m < count → ∀ r ∈ table, r.ordinary = true → r.key = key →
    r.bitset &&& bitset ≠ 0 → r ∈ s.woken ++ s.dropped

variable {bitset : BitVec 32} {result : Except Int Nat} {w : W}

theorem Section.Lawful.unchanged {target : Key} (hresult : ∀ m : Nat, result = .ok m → m = 0) :
    Section.Lawful n target bitset table ⟨result, table, [], [], [], w⟩ where
  parts := ⟨table, .refl _, by simp, by simp⟩
  ordinary := nofun
  order := List.nil_sublist _
  gone := nofun
  counted := hresult
  matched := nofun
  first := nofun

/-- The section of one pass that wakes. -/
def Pass.wakes (p : Pass W) : Section W := ⟨p.result, p.table, p.taken, [], p.dropped, p.world⟩

variable {key : Key}

theorem passes_selectOrder (hordinary : r.ordinary = true) :
    (selectOrder n key count bitset).passes r = false ↔ r.key = key ∧ r.bitset &&& bitset ≠ 0 := by
  simp only [Record.ordinary, Bool.and_eq_true, Bool.not_eq_true'] at hordinary
  simp [selectOrder, Record.passes, hordinary]

theorem ordinary_of_concerned (hof : (selectOrder n key count bitset).passes r = false)
    (hspecial : r.specialWait = false) : r.ordinary = true := by
  simp only [selectOrder, Record.passes, Bool.or_eq_false_iff] at hof
  simp [Record.ordinary, hof.1.1, hspecial]

theorem dead_of_signal_gone (h : (n.signal r w).1 = .gone) : ∃ w' : W, (n.dead r w').1 = true := by
  unfold Native.signal at h
  split at h
  · next hdead => exact ⟨w, by rw [hdead]⟩
  split at h
  · split at h
    · next w' _ hdead => exact ⟨_, by rw [hdead]⟩
    · cases h
  · split at h <;> cases h

theorem dead_of_move_gone (h : (n.move r w).1 = .gone) : ∃ w' : W, (n.dead r w').1 = true := by
  unfold Native.move at h
  split at h
  · next hdead => exact ⟨w, by rw [hdead]⟩
  · cases h

theorem select_lawful (key target : Key) (count : Nat) (bitset : BitVec 32)
    (table : List Record) (w : W) :
    (sweep (selectOrder n key count bitset) table 0 w).wakes.Lawful n target bitset table ∧
      (sweep (selectOrder n key count bitset) table 0 w).wakes.Exhausts key count bitset table := by
  obtain ⟨front, back, rfl, h⟩ := sweep_spec (selectOrder n key count bitset) table 0 w
  generalize sweep (selectOrder n key count bitset) (front ++ back) 0 w = p at h ⊢
  have hconcerned : ∀ r ∈ p.taken ++ p.dropped,
      r.ordinary = true ∧ r.key = key ∧ r.bitset &&& bitset ≠ 0 := by
    intro r hr
    obtain ⟨-, hof, hspecial⟩ := h.concerned hr
    have hordinary := ordinary_of_concerned hof hspecial
    exact ⟨hordinary, (passes_selectOrder hordinary).mp hof⟩
  refine ⟨⟨⟨p.table, h.kept_sublist, ?_, ?_⟩, ?_, List.nil_sublist _, fun r hr => ?_,
    fun m hm => ?_, fun r hr => (hconcerned r (List.mem_append_left _ hr)).2.2, ?_⟩, ?_⟩
  · simp [Pass.wakes]
  · simpa [Pass.wakes] using h.split
  · intro r hr
    exact (hconcerned r (by simpa [Pass.wakes] using hr)).1
  · obtain ⟨w', hw'⟩ := h.gone r hr
    exact dead_of_signal_gone hw'
  · simpa [Pass.wakes] using h.counted m hm
  · intro stamp hsorted x hx y hy hxo hkey hbits hlt
    obtain ⟨hyo, hykey, -⟩ := hconcerned y (List.mem_append_left _ hy)
    exact h.first hsorted hx hxo ((passes_selectOrder hxo).mpr ⟨hkey.trans hykey, hbits⟩) hy hyo hlt
  · intro m hm hlt r hr hro hkey hbits
    have hback : back = [] := h.ended m hm hlt
    subst hback
    rw [List.append_nil] at hr
    exact h.removes hr ((passes_selectOrder hro).mpr ⟨hkey, hbits⟩)

/-- The section of one pass that moves. -/
def Pass.moves (target : Key) (p : Pass W) : Section W :=
  ⟨p.result, p.rejoin target, [], p.taken, p.dropped, p.world⟩

theorem sweep_transfer_lawful (source target : Key) (count : Nat) (bitset : BitVec 32)
    (table : List Record) (w : W) :
    ((sweep (transferOrder n source count) table 0 w).moves target).Lawful n target bitset
      table := by
  obtain ⟨front, back, rfl, h⟩ := sweep_spec (transferOrder n source count) table 0 w
  generalize sweep (transferOrder n source count) (front ++ back) 0 w = p at h ⊢
  refine ⟨⟨p.table, h.kept_sublist, rfl, h.split⟩, fun r hr => ?_, ?_, fun r hr => ?_,
    fun m hm => ?_, nofun, nofun⟩
  · obtain ⟨-, hof, hspecial⟩ := h.concerned hr
    simp only [transferOrder, Bool.or_eq_false_iff] at hof
    simp [Record.ordinary, hof.1, hspecial]
  · exact (h.taken.trans List.filter_sublist).trans (List.sublist_append_left _ _)
  · obtain ⟨w', hw'⟩ := h.gone r hr
    exact dead_of_move_gone hw'
  · simpa [Pass.moves] using h.counted m hm

/-- A wake and what follows it on the table it leaves. -/
theorem Section.Lawful.trans {target : Key} {s t : Section W} (hs : s.Lawful n target bitset table)
    (hnone : s.moved = []) (ht : t.Lawful n target bitset s.table)
    (hresult : ∀ m : Nat, result = .ok m → m = s.woken.length + (t.woken.length + t.moved.length)) :
    Section.Lawful n target bitset table
      ⟨result, t.table, s.woken ++ t.woken, t.moved, s.dropped ++ t.dropped, t.world⟩ := by
  obtain ⟨kept, hkept, htable, hperm⟩ := hs.parts
  obtain ⟨kept', hkept', htable', hperm'⟩ := ht.parts
  rw [hnone, List.map_nil, List.append_nil] at htable
  rw [hnone, List.append_nil] at hperm
  subst htable
  refine ⟨⟨kept', hkept'.trans hkept, htable', ?_⟩, ?_, ht.order.trans hkept, ?_, fun m hm => ?_,
    ?_, ?_⟩
  · refine hperm.trans ((hperm'.append_right _).trans ?_)
    rw [List.append_assoc]
    refine List.Perm.append_left _ (List.perm_iff_count.mpr fun a => ?_)
    simp only [List.count_append]
    omega
  · intro r hr
    have hs' := hs.ordinary r
    have ht' := ht.ordinary r
    simp only [List.mem_append] at hr hs' ht'
    tauto
  · intro r hr
    rcases List.mem_append.mp hr with hr | hr
    · exact hs.gone r hr
    · exact ht.gone r hr
  · have hm' := hresult m hm
    simp only [List.length_append]
    omega
  · intro r hr
    rcases List.mem_append.mp hr with hr | hr
    · exact hs.matched r hr
    · exact ht.matched r hr
  · intro stamp hsorted x hx y hy hxo hkey hbits hlt
    -- What the wake leaves is still there for what follows.
    have hcases : x ∈ s.table ∨ x ∈ s.woken ++ s.dropped := List.mem_append.mp (hperm.mem_iff.mp hx)
    rcases List.mem_append.mp hy with hy | hy
    · have hfirst := hs.first stamp hsorted x hx y hy hxo hkey hbits hlt
      simp only [List.mem_append] at hfirst ⊢
      tauto
    rcases hcases with hx' | hremoved
    · have hfirst := ht.first stamp (hsorted.sublist (hkept.filter _)) x hx' y hy hxo hkey hbits hlt
      simp only [List.mem_append] at hfirst ⊢
      tauto
    · simp only [List.mem_append] at hremoved ⊢
      tauto

/-! ## The sections -/

theorem select_wakes (optimized : Bool) (key target : Key) (count : Nat) (bitset : BitVec 32)
    (table : List Record) (w : W) :
    (select optimized n key count bitset table w).wakes.Lawful n target bitset table ∧
      (select optimized n key count bitset table w).wakes.Exhausts key count bitset table := by
  rw [select_eq]
  exact select_lawful key target count bitset table w

theorem Section.Exhausts.idle
    (h : ∀ r ∈ table, r.ordinary = true → r.key = key → r.bitset &&& bitset = 0) :
    (Section.idle table w).Exhausts key count bitset table :=
  fun _ _ _ r hr hordinary hkey hbits => absurd (h r hr hordinary hkey) hbits

theorem wake_lawful (optimized : Bool) (key target : Key) (count : Nat) (bitset : BitVec 32)
    (table : List Record) (w : W) :
    (wake optimized n key count bitset table w).Lawful n target bitset table ∧
      (wake optimized n key count bitset table w).Exhausts key count bitset table := by
  unfold wake
  split
  · next hidle =>
    refine ⟨.unchanged fun m hm => (Except.ok.inj hm).symm, .idle fun r hr _ hkey => ?_⟩
    simp only [Bool.and_eq_true, Bool.not_eq_true', List.any_eq_false] at hidle
    simpa [hkey] using hidle.2 r hr
  · exact select_wakes optimized key target count bitset table w

theorem Transaction.wake_lawful (optimized : Bool) (key target : Key) (count : Nat)
    (bitset : BitVec 32) (table : List Record) (w : W) :
    (Transaction.wake ⟨table, false⟩ optimized n key count bitset w).2.wakes.Lawful n target
        bitset table ∧
      (Transaction.wake ⟨table, false⟩ optimized n key count bitset w).2.wakes.Exhausts key count
        bitset table ∧
      (Transaction.wake ⟨table, false⟩ optimized n key count bitset w).1.commit table =
        (Transaction.wake ⟨table, false⟩ optimized n key count bitset w).2.table := by
  unfold Transaction.wake
  split
  · exact ⟨.unchanged fun m hm => (Except.ok.inj hm).symm, fun m _ hlt => by omega, rfl⟩
  · obtain ⟨hlawful, hexhausts⟩ :=
      select_wakes (n := n) optimized key target count bitset table w
    exact ⟨hlawful, hexhausts, rfl⟩

theorem Transaction.transfer_lawful (t : Transaction) (optimized : Bool) (source target : Key)
    (count : Nat) (bitset : BitVec 32) (w : W) :
    ((t.transfer optimized n source target count w).2.moves target).Lawful n target bitset
        t.records ∧
      (t.transfer optimized n source target count w).1.records =
        ((t.transfer optimized n source target count w).2.moves target).table ∧
      ((t.transfer optimized n source target count w).1.dirty = false →
        (t.transfer optimized n source target count w).1.records = t.records ∧
          t.dirty = false) := by
  rw [transfer_eq]
  unfold Transaction.transfer
  refine ⟨sweep_transfer_lawful source target count bitset t.records w, rfl, fun hclean => ?_⟩
  simp only [Bool.false_eq_true, if_false, Bool.or_eq_false_iff, Bool.not_eq_false'] at hclean ⊢
  obtain ⟨front, back, hsplit, h⟩ := sweep_spec (transferOrder n source count) t.records 0 w
  have hempty := hclean.2
  have htaken : (sweep (transferOrder n source count) t.records 0 w).taken = [] :=
    (List.append_eq_nil_iff.mp (List.isEmpty_iff.mp hempty)).2
  rw [Pass.rejoin, h.table_eq hempty, htaken, List.map_nil, List.append_nil, hsplit]
  exact ⟨rfl, hclean.1⟩

theorem Section.Exhausts.trans {s t : Section W} (hs : s.Exhausts key count bitset table)
    {first : Nat} (hfirst : s.result = .ok first) (hresult : ∀ m : Nat, result = .ok m → first ≤ m)
    {table' moved : List Record} :
    Section.Exhausts key count bitset table
      ⟨result, table', s.woken ++ t.woken, moved, s.dropped ++ t.dropped, w⟩ := by
  intro m hm hlt r hr hordinary hkey hbits
  have hfound := hs first hfirst (Nat.lt_of_le_of_lt (hresult m hm) hlt) r hr hordinary hkey hbits
  simp only [List.mem_append] at hfound ⊢
  tauto

theorem Transaction.transferSection_lawful (optimized : Bool) (source target : Key)
    (count : Nat) (bitset : BitVec 32) (table : List Record) (w : W) :
    (transferSection optimized n source target count table w).Lawful n target bitset table := by
  obtain ⟨hlawful, hrecords, hclean⟩ :=
    transfer_lawful (n := n) ⟨table, false⟩ optimized source target count bitset w
  unfold transferSection
  cases hresult : Transaction.transfer ⟨table, false⟩ optimized n source target count w with
  | mk t p =>
    rw [hresult] at hlawful hrecords hclean
    have hcommit : t.commit table = (p.moves target).table := by
      unfold Transaction.commit
      cases hdirty : t.dirty with
      | true => simpa using hrecords
      | false =>
        simp only [Bool.false_eq_true, if_false]
        exact (hclean hdirty).1.symm.trans hrecords
    simp only [hcommit]
    exact hlawful

theorem Transaction.wakeSection_lawful (optimized : Bool) (key target : Key) (count : Nat)
    (bitset : BitVec 32) (table : List Record) (w : W) :
    (wakeSection optimized n key count bitset table w).Lawful n target bitset table ∧
      (wakeSection optimized n key count bitset table w).Exhausts key count bitset table := by
  obtain ⟨hlawful, hexhausts, hcommit⟩ :=
    wake_lawful (n := n) optimized key target count bitset table w
  unfold wakeSection
  cases hresult : Transaction.wake ⟨table, false⟩ optimized n key count bitset w with
  | mk t p =>
    rw [hresult] at hlawful hexhausts hcommit
    simp only [hcommit]
    exact ⟨hlawful, hexhausts⟩

theorem requeue_lawful (optimized : Bool) (key destination : Key) (count moveCount : Nat)
    (comparison : Option (BitVec 32 × BitVec 32)) (table : List Record) (w : W) :
    (requeue optimized n key destination count moveCount comparison table w).Lawful n destination
        MATCH_ANY table ∧
      (requeue optimized n key destination count moveCount comparison table w).Exhausts key count
        MATCH_ANY table := by
  unfold requeue
  split
  · exact ⟨.unchanged nofun, nofun⟩
  split
  · next hidle =>
    refine ⟨.unchanged fun m hm => (Except.ok.inj hm).symm, fun m _ _ r hr hordinary hkey => ?_⟩
    simp only [Bool.and_eq_true, Bool.not_eq_true', List.any_eq_false] at hidle
    have hmetadata := hidle.2 r hr
    simp only [Record.ordinary, Bool.and_eq_true, Bool.not_eq_true'] at hordinary
    simp [hkey, hordinary] at hmetadata
  obtain ⟨hwake, hexhausts, hcommit⟩ :=
    Transaction.wake_lawful (n := n) optimized key destination count MATCH_ANY table w
  have hclean : (Transaction.wake ⟨table, false⟩ optimized n key count MATCH_ANY w).1.records =
      (Transaction.wake ⟨table, false⟩ optimized n key count MATCH_ANY w).2.table := by
    unfold Transaction.wake
    split <;> rfl
  cases hfirst : Transaction.wake ⟨table, false⟩ optimized n key count MATCH_ANY w with
  | mk t p =>
    rw [hfirst] at hwake hexhausts hcommit hclean
    simp only
    cases hresult : p.result with
    | error e =>
      simp only [hcommit]
      unfold Pass.wakes at hwake
      rw [hresult] at hwake
      exact ⟨hwake, nofun⟩
    | ok woken =>
      obtain ⟨hmove, hrecords, hidle⟩ :=
        t.transfer_lawful (n := n) optimized key destination moveCount MATCH_ANY p.world
      simp only
      cases hsecond : t.transfer optimized n key destination moveCount p.world with
      | mk u q =>
        rw [hsecond] at hmove hrecords hidle
        simp only
        have htable : u.commit table = (q.moves destination).table := by
          unfold Transaction.commit
          cases hdirty : u.dirty with
          | true => simpa using hrecords
          | false =>
            obtain ⟨hsame, ht⟩ := hidle hdirty
            have hkept : t.commit table = table := by
              simp [Transaction.commit, ht]
            rw [hcommit] at hkept
            simp only [Bool.false_eq_true, if_false]
            rw [← hrecords, hsame, hclean, hkept]
        rw [hclean] at hmove
        rw [htable]
        have hcounted : ∀ m : Nat, (q.result.map fun moved => woken + moved) = .ok m →
            m = p.taken.length + q.taken.length ∧ woken ≤ m := by
          intro m hm
          have hwoken := hwake.counted woken hresult
          cases hmoved : q.result with
          | error e =>
            rw [hmoved] at hm
            cases hm
          | ok moved =>
            rw [hmoved] at hm
            obtain rfl := Except.ok.inj hm
            have hq := hmove.counted moved hmoved
            simp only [Pass.wakes, Pass.moves, List.length_nil] at hwoken hq ⊢
            omega
        have hlawful := hwake.trans rfl hmove fun m hm => by
          simpa [Pass.wakes, Pass.moves] using (hcounted m hm).1
        have hrest : Section.Exhausts key count MATCH_ANY table
            ⟨q.result.map fun moved => woken + moved, (q.moves destination).table,
              p.wakes.woken ++ (q.moves destination).woken, q.taken,
              p.wakes.dropped ++ (q.moves destination).dropped, q.world⟩ :=
          hexhausts.trans hresult fun m hm => (hcounted m hm).2
        simp only [Pass.wakes, Pass.moves, List.append_nil] at hlawful hrest
        exact ⟨hlawful, hrest⟩

theorem wakeOp_lawful (optimized : Bool) (key target : Key) (count : Nat) (destination : Key)
    (count2 : Nat) (operation : Except Int Bool) (table : List Record) (w : W) :
    (wakeOp optimized n key count destination count2 operation table w).Lawful n target MATCH_ANY
        table ∧
      (wakeOp optimized n key count destination count2 operation table w).Exhausts key count
        MATCH_ANY table := by
  unfold wakeOp
  cases operation with
  | error e => exact ⟨.unchanged nofun, nofun⟩
  | ok second =>
    simp only
    split
    · next hidle =>
      refine ⟨.unchanged fun m hm => (Except.ok.inj hm).symm, fun m _ _ r hr _ hkey => ?_⟩
      simp only [Bool.and_eq_true, Bool.not_eq_true', List.any_eq_false] at hidle
      have hother := hidle.2 r hr
      simp [hkey] at hother
    obtain ⟨hfirst, hexhausts⟩ :=
      select_wakes (n := n) optimized key target count MATCH_ANY table w
    generalize select optimized n key count MATCH_ANY table w = p at hfirst hexhausts ⊢
    cases hresult : p.result with
    | error e =>
      simp only
      unfold Pass.wakes at hfirst
      rw [hresult] at hfirst
      exact ⟨hfirst, nofun⟩
    | ok first =>
      simp only
      split
      · obtain ⟨hsecond, -⟩ := select_wakes (n := n) optimized destination target count2
          MATCH_ANY p.table p.world
        generalize select optimized n destination count2 MATCH_ANY p.table p.world = q at hsecond ⊢
        have hcounted : ∀ m : Nat, (q.result.map fun more => first + more) = .ok m →
            m = p.taken.length + q.taken.length ∧ first ≤ m := by
          intro m hm
          have hp := hfirst.counted first hresult
          cases hmore : q.result with
          | error e =>
            rw [hmore] at hm
            cases hm
          | ok more =>
            rw [hmore] at hm
            obtain rfl := Except.ok.inj hm
            have hq := hsecond.counted more hmore
            simp only [Pass.wakes, List.length_nil] at hp hq ⊢
            omega
        refine ⟨hfirst.trans rfl hsecond fun m hm => ?_, ?_⟩
        · simpa [Pass.wakes] using (hcounted m hm).1
        · exact hexhausts.trans (t := q.wakes) hresult fun m hm => (hcounted m hm).2
      · unfold Pass.wakes at hfirst hexhausts
        rw [hresult] at hfirst hexhausts
        exact ⟨hfirst, hexhausts⟩

end Kinakaze.Futex
