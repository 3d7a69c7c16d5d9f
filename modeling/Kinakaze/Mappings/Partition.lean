import Kinakaze.Library.Overwrite
import Kinakaze.Mappings.Registry
import Mathlib.Data.List.Perm.Basic

/-!
# The registry stays a partition

* `replace_partitions`: replacing a range overwrites the registry there.
-/

namespace Kinakaze.Mappings

open Kinakaze.Library

variable {new e : SharedForkMapping}

namespace SharedForkMapping

def finish (m : SharedForkMapping) : Nat := m.base + m.len

/-- The ranges of the mappings do not meet. -/
def Apart (m n : SharedForkMapping) : Prop := m.finish ≤ n.base ∨ n.finish ≤ m.base

instance (m n : SharedForkMapping) : Decidable (m.Apart n) := inferInstanceAs (Decidable (_ ∨ _))

theorem Apart.symm {m n : SharedForkMapping} (h : m.Apart n) : n.Apart m := Or.symm h

/-- The mapping behind the new one's range. -/
def behind (e new : SharedForkMapping) : SharedForkMapping :=
  { e with
    base := new.finish
    len := e.finish - new.finish
    backingOffset :=
      if e.sectionView then e.backingOffset + (new.finish - e.base) else e.backingOffset }

/-- What a new mapping leaves of an old one. -/
def carve (new e : SharedForkMapping) : List SharedForkMapping :=
  if e.Apart new then [e]
  else
    (if e.base < new.base then [{ e with len := new.base - e.base }] else []) ++
      if new.finish < e.finish then [e.behind new] else []

/-- The new mapping lies inside the old one, with something left on both sides. -/
def splits (new e : SharedForkMapping) : Bool :=
  decide (¬ e.Apart new) && decide (e.base < new.base) && decide (new.finish < e.finish)

/-- No sum that carving computes overflows. -/
structure Fits (new e : SharedForkMapping) : Prop where
  finish : e.finish < 2 ^ 64
  offset : ¬ e.Apart new → e.sectionView = true → new.finish < e.finish →
    e.backingOffset + (new.finish - e.base) < 2 ^ 64

end SharedForkMapping

open SharedForkMapping

variable {a b address : Nat}

theorem checkedAdd_eq_some (h : a + b < 2 ^ 64) : checkedAdd a b = some (a + b) :=
  if_pos h

theorem checkedAdd_eq_none_iff : checkedAdd a b = none ↔ 2 ^ 64 ≤ a + b := by
  unfold checkedAdd
  split_ifs with h
  · simp only [false_iff]
    omega
  · simp only [true_iff]
    omega

theorem rightPart_eq (hfits : Fits new e) (hmeet : ¬ e.Apart new) (hright : new.finish < e.finish) :
    rightPart new.finish e e.finish = some (e.behind new) := by
  unfold rightPart behind
  dsimp only
  by_cases hview : e.sectionView = true
  · rw [if_pos hview, checkedAdd_eq_some (hfits.offset hmeet hview hright), if_pos hview]
    rfl
  · rw [if_neg hview, if_neg hview]

/-! ## The pass -/

theorem carve_apart (h : e.Apart new) : carve new e = [e] := if_pos h

theorem behind_apart : (e.behind new).Apart new := Or.inr (Nat.le_refl _)

theorem splits_apart (h : e.Apart new) : splits new e = false := by
  simp [splits, h]

theorem splits_behind : splits new (e.behind new) = false := splits_apart behind_apart

theorem fits_apart (hfinish : e.finish < 2 ^ 64) (h : e.Apart new) : Fits new e :=
  ⟨hfinish, fun hmeet => absurd h hmeet⟩

theorem store_here (before after rest : List SharedForkMapping) (entry : SharedForkMapping) :
    store (before ++ e :: after ++ rest) before.length entry =
      some (before ++ entry :: after ++ rest) := by
  unfold store
  rw [if_pos (by simp)]
  simp

theorem store_end (before rest : List SharedForkMapping) (entry : SharedForkMapping) :
    store (before ++ e :: rest) before.length entry = some (before ++ entry :: rest) := by
  unfold store
  rw [if_pos (by simp)]
  simp

/-- The pass carves what it has yet to see, and keeps what it has passed. -/
theorem carveRange_spec (fuel : Nat) (passed unseen free : List SharedForkMapping)
    (hfits : ∀ e ∈ unseen, Fits new e) (hfuel : unseen.length + unseen.countP (splits new) ≤ fuel)
    (hroom : unseen.countP (splits new) ≤ free.length) :
    ∃ live free', carveRange new new.finish fuel (passed ++ unseen ++ free) passed.length
        (passed.length + unseen.length) = some (live ++ free', live.length) ∧
      live.Perm (passed ++ unseen.flatMap (carve new)) ∧
      (live ++ free').length = (passed ++ unseen ++ free).length := by
  induction fuel generalizing passed unseen free with
  | zero =>
    obtain rfl : unseen = [] := List.eq_nil_of_length_eq_zero (by omega)
    refine ⟨passed, free, ?_, by simp, by simp⟩
    unfold carveRange
    rw [if_neg (by simp)]
    simp
  | succ fuel ih =>
    cases unseen with
    | nil =>
      refine ⟨passed, free, ?_, by simp, by simp⟩
      unfold carveRange
      rw [if_neg (by simp)]
      simp
    | cons e rest =>
      have hread : (passed ++ e :: rest ++ free)[passed.length]? = some e := by simp
      have hfit := hfits e List.mem_cons_self
      have hrest : ∀ x ∈ rest, Fits new x := fun x hx => hfits x (List.mem_cons_of_mem _ hx)
      have hadd : checkedAdd e.base e.len = some e.finish := checkedAdd_eq_some hfit.finish
      rw [List.length_cons, List.countP_cons] at hfuel
      rw [List.countP_cons] at hroom
      unfold carveRange
      rw [if_pos (by simp)]
      simp only [hread, hadd, Option.bind_eq_bind, Option.bind_some]
      -- one piece in the place of the old mapping
      have hpass : ∀ x, carve new e = [x] → ∃ live free',
          carveRange new new.finish fuel (passed ++ x :: rest ++ free) (passed.length + 1)
            (passed.length + (e :: rest).length) = some (live ++ free', live.length) ∧
          live.Perm (passed ++ (e :: rest).flatMap (carve new)) ∧
          (live ++ free').length = (passed ++ e :: rest ++ free).length := by
        intro x hx
        obtain ⟨live, free', hrun, hperm, hlength⟩ := ih (passed ++ [x]) rest free hrest
          (by omega) (by omega)
        refine ⟨live, free', ?_, ?_, ?_⟩
        · rw [← hrun]
          congr 1
          · simp
          · simp
          · simp only [List.length_append, List.length_cons, List.length_nil]
            omega
        · refine hperm.trans ?_
          rw [List.flatMap_cons, hx]
          simp
        · rw [hlength]
          simp
      by_cases hapart : e.Apart new
      · have hskip : e.finish ≤ new.base ∨ new.finish ≤ e.base := hapart
        rw [if_pos hskip]
        exact hpass e (carve_apart hapart)
      have hmeet : ¬ (e.finish ≤ new.base ∨ new.finish ≤ e.base) := hapart
      rw [if_neg hmeet]
      by_cases hleft : e.base < new.base
      · rw [if_pos hleft, store_here, Option.bind_some]
        by_cases hright : new.finish < e.finish
        · -- both sides stay: the right part goes behind the live mappings
          rw [if_pos hright, rightPart_eq hfit hapart hright, Option.bind_some]
          have hsplits : splits new e = true := by simp [splits, hapart, hleft, hright]
          rw [if_pos hsplits] at hfuel hroom
          cases free with
          | nil =>
            rw [List.length_nil] at hroom
            omega
          | cons slot free =>
            have hlive : passed.length + (e :: rest).length =
                (passed ++ { e with len := new.base - e.base } :: rest).length := by simp
            rw [hlive, store_end, Option.bind_some]
            obtain ⟨live, free', hrun, hperm, hlength⟩ :=
              ih (passed ++ [{ e with len := new.base - e.base }]) (rest ++ [e.behind new]) free
                (fun x hx => by
                  rcases List.mem_append.mp hx with hold | hadded
                  · exact hrest x hold
                  rw [List.mem_singleton.mp hadded]
                  refine fits_apart ?_ behind_apart
                  have hfinish := hfit.finish
                  show new.finish + (e.finish - new.finish) < 2 ^ 64
                  omega)
                (by simp [List.countP_append, splits_behind]; omega)
                (by simp [List.countP_append, splits_behind] at hroom ⊢; omega)
            refine ⟨live, free', ?_, ?_, ?_⟩
            · rw [← hrun]
              congr 1
              · simp
              · simp
              · simp only [List.length_append, List.length_cons, List.length_nil]
                omega
            · have hcarve : carve new e = [{ e with len := new.base - e.base }, e.behind new] := by
                simp [carve, hapart, hleft, hright]
              refine hperm.trans ?_
              simp only [List.flatMap_append, List.flatMap_cons, List.flatMap_nil, hcarve,
                carve_apart behind_apart, List.append_nil, List.append_assoc, List.cons_append,
                List.nil_append]
              refine List.Perm.append_left passed ?_
              exact (List.perm_append_singleton _ _).cons _
            · rw [hlength]
              simp
        · rw [if_neg hright]
          refine hpass _ ?_
          simp [carve, hapart, hleft, hright]
      · rw [if_neg hleft]
        by_cases hright : new.finish < e.finish
        · rw [if_pos hright, rightPart_eq hfit hapart hright, Option.bind_some, store_here,
            Option.bind_some]
          refine hpass _ ?_
          simp [carve, hapart, hleft, hright]
        -- nothing stays: the last live mapping takes the place
        rw [if_neg hright]
        have hcarve : carve new e = [] := by simp [carve, hapart, hleft, hright]
        have hfew : splits new e = false := by simp [splits, hright]
        rw [if_neg (by rw [hfew]; exact Bool.false_ne_true)] at hfuel hroom
        rcases List.eq_nil_or_concat' rest with rfl | ⟨middle, last, rfl⟩
        · have hlast : passed.length + [e].length - 1 = passed.length := by simp
          rw [hlast, hread, Option.bind_some, store_here, Option.bind_some, store_here,
            Option.bind_some]
          obtain ⟨live, free', hrun, hperm, hlength⟩ := ih passed [] (.default :: free)
            nofun (by simp) (by simp)
          refine ⟨live, free', ?_, ?_, ?_⟩
          · rw [← hrun]
            congr 1
            simp
          · simpa [hcarve] using hperm
          · rw [hlength]
            simp
        have hlast : passed.length + (e :: (middle ++ [last])).length - 1 =
            (passed ++ e :: middle).length := by
          simp only [List.length_append, List.length_cons, List.length_nil]
          omega
        have hread' : (passed ++ e :: (middle ++ [last]) ++ free)[(passed ++ e :: middle).length]? =
            some last := by
          have hsplit : passed ++ e :: (middle ++ [last]) ++ free =
              (passed ++ e :: middle) ++ last :: free := by simp
          rw [hsplit, List.getElem?_append_right (Nat.le_refl _), Nat.sub_self]
          rfl
        have hswap : (last :: middle).Perm (middle ++ [last]) :=
          (List.perm_append_singleton last middle).symm
        have hlast' : (passed ++ e :: middle).length = (passed ++ last :: middle).length := by simp
        have htable : passed ++ last :: (middle ++ [last]) ++ free =
            (passed ++ last :: middle) ++ last :: free := by simp
        rw [hlast, hread', Option.bind_some, store_here, Option.bind_some, hlast', htable,
          store_end, Option.bind_some]
        obtain ⟨live, free', hrun, hperm, hlength⟩ := ih passed (last :: middle) (.default :: free)
          (fun x hx => hrest x (hswap.mem_iff.mp hx))
          (by rw [hswap.countP_eq, hswap.length_eq]; omega)
          (by rw [hswap.countP_eq, List.length_cons]; omega)
        refine ⟨live, free', ?_, ?_, ?_⟩
        · rw [← hrun]
          congr 1
          · simp
        · refine hperm.trans (List.Perm.append_left passed ?_)
          rw [List.flatMap_cons (x := e), hcarve, List.nil_append]
          exact hswap.flatMap_right _
        · rw [hlength]
          simp

/-! ## The check ahead of it -/

theorem carve_length (h : ¬ e.Apart new) : (carve new e).length =
    (if e.base < new.base then 1 else 0) + if new.finish < e.finish then 1 else 0 := by
  unfold carve
  rw [if_neg h]
  split_ifs <;> rfl

theorem preflight_iff {capacity : Nat} (live : List SharedForkMapping) (required : Nat) :
    preflight new new.finish capacity live required = true ↔ (∀ e ∈ live, Fits new e) ∧
        (live = [] ∨ required + (live.flatMap (carve new)).length ≤ capacity) := by
  induction live generalizing required with
  | nil => simp [preflight]
  | cons e rest ih =>
    unfold preflight
    by_cases hfinish : e.finish < 2 ^ 64
    · have hadd : checkedAdd e.base e.len = some e.finish := checkedAdd_eq_some hfinish
      rw [hadd]
      dsimp only
      rw [List.flatMap_cons, List.length_append, List.forall_mem_cons]
      by_cases hapart : e.Apart new
      · have hskip : e.finish ≤ new.base ∨ new.finish ≤ e.base := hapart
        rw [if_pos hskip, carve_apart hapart, List.length_singleton]
        by_cases hfull : required + 1 > capacity
        · rw [if_pos hfull]
          simp only [Bool.false_eq_true, reduceCtorEq, false_or, false_iff, not_and]
          intro _
          omega
        rw [if_neg hfull, ih]
        constructor
        · rintro ⟨hrest, hfit⟩
          refine ⟨⟨fits_apart hfinish hapart, hrest⟩, .inr ?_⟩
          rcases hfit with rfl | hfit
          · simpa using Nat.not_lt.mp hfull
          · omega
        · rintro ⟨⟨-, hrest⟩, hfit⟩
          refine ⟨hrest, .inr ?_⟩
          rcases hfit with hnil | hfit
          · cases hnil
          · omega
      have hmeet : ¬ (e.finish ≤ new.base ∨ new.finish ≤ e.base) := hapart
      rw [if_neg hmeet, carve_length hapart]
      generalize hpieces : (if e.base < new.base then 1 else 0) +
        (if new.finish < e.finish then 1 else 0) = pieces
      rw [Nat.add_assoc required, hpieces]
      by_cases hover : e.sectionView = true ∧ new.finish < e.finish ∧
          checkedAdd e.backingOffset (new.finish - e.base) = none
      · rw [if_pos hover]
        simp only [Bool.false_eq_true, false_iff]
        rintro ⟨⟨hfit, -⟩, -⟩
        have hoffset := hfit.offset hapart hover.1 hover.2.1
        have hlarge := checkedAdd_eq_none_iff.mp hover.2.2
        omega
      have hfit : Fits new e := by
        refine ⟨hfinish, fun _ hview hright => ?_⟩
        by_cases hlarge : 2 ^ 64 ≤ e.backingOffset + (new.finish - e.base)
        · exact absurd ⟨hview, hright, checkedAdd_eq_none_iff.mpr hlarge⟩ hover
        · exact Nat.not_le.mp hlarge
      rw [if_neg hover]
      by_cases hfull : required + pieces > capacity
      · rw [if_pos hfull]
        simp only [Bool.false_eq_true, reduceCtorEq, false_or, false_iff, not_and]
        intro _
        omega
      rw [if_neg hfull, ih]
      constructor
      · rintro ⟨hrest, hroom⟩
        refine ⟨⟨hfit, hrest⟩, .inr ?_⟩
        rcases hroom with rfl | hroom
        · simpa using Nat.not_lt.mp hfull
        · omega
      · rintro ⟨⟨-, hrest⟩, hroom⟩
        refine ⟨hrest, .inr ?_⟩
        rcases hroom with hnil | hroom
        · cases hnil
        · omega
    · have hadd : checkedAdd e.base e.len = none := by
        rw [checkedAdd_eq_none_iff]
        exact Nat.not_lt.mp hfinish
      rw [hadd]
      dsimp only
      simp only [Bool.false_eq_true, false_iff]
      exact fun h => hfinish (h.1 e List.mem_cons_self).finish

/-! ## The partition -/

theorem flatMap_carve_apart {live : List SharedForkMapping} (h : ∀ x ∈ live, x.Apart new) :
    live.flatMap (carve new) = live := by
  induction live with
  | nil => rfl
  | cons x rest ih =>
    rw [List.flatMap_cons, carve_apart (h x List.mem_cons_self),
      ih fun y hy => h y (List.mem_cons_of_mem _ hy)]
    rfl

theorem countP_splits_apart {live : List SharedForkMapping} (h : ∀ x ∈ live, x.Apart new) :
    live.countP (splits new) = 0 := by
  rw [List.countP_eq_zero]
  intro x hx
  rw [splits_apart (h x hx)]
  exact Bool.false_ne_true

theorem apart_of_splits {x : SharedForkMapping} (hsplits : splits new e = true) (h : x.Apart e) :
    x.Apart new := by
  simp only [splits, Bool.and_eq_true, decide_eq_true_eq] at hsplits
  obtain ⟨⟨-, hleft⟩, hright⟩ := hsplits
  unfold Apart at h ⊢
  omega

theorem splits_room {live : List SharedForkMapping} (h : live.Pairwise Apart) :
    live.countP (splits new) = 0 ∨
      live.length + live.countP (splits new) ≤ (live.flatMap (carve new)).length := by
  by_cases hnone : live.countP (splits new) = 0
  · exact .inl hnone
  right
  obtain ⟨e, he, hsplits⟩ := List.countP_pos_iff.mp (Nat.pos_of_ne_zero hnone)
  obtain ⟨before, after, rfl⟩ := List.append_of_mem he
  rw [List.pairwise_append, List.pairwise_cons] at h
  obtain ⟨-, ⟨hafter, -⟩, hbefore⟩ := h
  have hapart : ∀ x ∈ before, x.Apart new :=
    fun x hx => apart_of_splits hsplits (hbefore x hx e List.mem_cons_self)
  have hapart' : ∀ x ∈ after, x.Apart new :=
    fun x hx => apart_of_splits hsplits (hafter x hx).symm
  have hmeet := hsplits
  simp only [splits, Bool.and_eq_true, decide_eq_true_eq] at hmeet
  rw [List.flatMap_append, List.flatMap_cons, flatMap_carve_apart hapart,
    flatMap_carve_apart hapart', List.countP_append, List.countP_cons, countP_splits_apart hapart,
    countP_splits_apart hapart', if_pos hsplits]
  simp only [List.length_append, List.length_cons, carve_length hmeet.1.1, if_pos hmeet.1.2,
    if_pos hmeet.2]
  omega

variable {p m : SharedForkMapping}

theorem piece_within (hp : p ∈ carve new e) :
    p.Apart new ∧ e.base ≤ p.base ∧ p.finish ≤ e.finish := by
  unfold carve at hp
  by_cases hapart : e.Apart new
  · rw [if_pos hapart, List.mem_singleton] at hp
    rw [hp]
    exact ⟨hapart, Nat.le_refl _, Nat.le_refl _⟩
  rw [if_neg hapart, List.mem_append] at hp
  have hmeet := hapart
  unfold Apart at hmeet
  rcases hp with hp | hp
  · split_ifs at hp with hleft
    · obtain rfl := List.mem_singleton.mp hp
      have hfinish : ({ e with len := new.base - e.base } : SharedForkMapping).finish = new.base := by
        show e.base + (new.base - e.base) = new.base
        omega
      refine ⟨.inl (Nat.le_of_eq hfinish), Nat.le_refl _, ?_⟩
      rw [hfinish]
      omega
    · cases hp
  · split_ifs at hp with hright
    · obtain rfl := List.mem_singleton.mp hp
      refine ⟨behind_apart, ?_, ?_⟩
      · show e.base ≤ new.finish
        omega
      · show new.finish + (e.finish - new.finish) ≤ e.finish
        omega
    · cases hp

theorem carve_pairwise : (carve new e).Pairwise Apart := by
  unfold carve
  split_ifs with hapart hleft hright hright
  · exact List.pairwise_singleton _ _
  · refine List.pairwise_pair.mpr (.inl ?_)
    show e.base + (new.base - e.base) ≤ new.base + new.len
    omega
  · exact List.pairwise_singleton _ _
  · exact List.pairwise_singleton _ _
  · exact .nil

theorem pieces_pairwise {live : List SharedForkMapping} (h : live.Pairwise Apart) :
    (new :: live.flatMap (carve new)).Pairwise Apart := by
  rw [List.pairwise_cons, List.pairwise_flatMap]
  refine ⟨fun p hp => ?_, fun _ _ => carve_pairwise, ?_⟩
  · obtain ⟨e, -, hpiece⟩ := List.mem_flatMap.mp hp
    exact (piece_within hpiece).1.symm
  · refine h.imp ?_
    intro e f hapart p hp q hq
    obtain ⟨-, hlow, hhigh⟩ := piece_within hp
    obtain ⟨-, hlow', hhigh'⟩ := piece_within hq
    unfold Apart at hapart ⊢
    omega

/-! ## What the registry means -/

/-- How an address is mapped: the attributes, and for a section view the byte of the section. -/
structure Mapped where
  behavior : Nat
  storage : Nat
  backingSlot : Nat
  backing : Nat
  viewProtection : Nat
  domain : Nat

namespace SharedForkMapping

def covers (m : SharedForkMapping) (address : Nat) : Bool :=
  decide (m.base ≤ address) && decide (address < m.finish)

def mapped (m : SharedForkMapping) (address : Nat) : Mapped where
  behavior := m.behavior
  storage := m.storage
  backingSlot := m.backingSlot
  backing := if m.sectionView then m.backingOffset + (address - m.base) else m.backingOffset
  viewProtection := m.viewProtection
  domain := m.domain

end SharedForkMapping

theorem covers_iff : m.covers address = true ↔ m.base ≤ address ∧ address < m.finish := by
  simp [covers]

theorem exclusive_of_apart {n : SharedForkMapping} (h : m.Apart n) : Exclusive covers m n := by
  intro address hm
  rw [covers_iff] at hm
  rw [← Bool.not_eq_true, covers_iff]
  unfold Apart at h
  omega

theorem mem_carve (h : ¬ e.Apart new) : p ∈ carve new e ↔
    e.base < new.base ∧ p = { e with len := new.base - e.base } ∨
      new.finish < e.finish ∧ p = e.behind new := by
  unfold carve
  rw [if_neg h, List.mem_append]
  split_ifs with hleft hright hright <;> simp [hleft, hright]

theorem behind_mapped (hmeet : ¬ e.Apart new) (h : new.finish ≤ address) :
    (e.behind new).mapped address = e.mapped address := by
  have hbacking : ((e.behind new).mapped address).backing = (e.mapped address).backing := by
    unfold mapped behind
    dsimp only
    by_cases hview : e.sectionView = true
    · have hview' : ({ e with
          base := new.finish
          len := e.finish - new.finish
          backingOffset := if e.sectionView then e.backingOffset + (new.finish - e.base)
            else e.backingOffset } : SharedForkMapping).sectionView = true := hview
      rw [if_pos hview', if_pos hview, if_pos hview]
      unfold Apart at hmeet
      omega
    · have hview' : ¬ ({ e with
          base := new.finish
          len := e.finish - new.finish
          backingOffset := if e.sectionView then e.backingOffset + (new.finish - e.base)
            else e.backingOffset } : SharedForkMapping).sectionView = true := hview
      rw [if_neg hview', if_neg hview, if_neg hview]
  calc (e.behind new).mapped address
    _ = { e.mapped address with backing := ((e.behind new).mapped address).backing } := rfl
    _ = e.mapped address := by rw [hbacking]

theorem carve_mapped {how : Mapped} :
    (∃ p ∈ carve new e, p.covers address = true ∧ p.mapped address = how) ↔
      e.covers address = true ∧ new.covers address = false ∧ e.mapped address = how := by
  rw [← Bool.not_eq_true (new.covers address), covers_iff, covers_iff]
  by_cases hapart : e.Apart new
  · rw [carve_apart hapart]
    simp only [List.mem_singleton, exists_eq_left, covers_iff]
    unfold Apart at hapart
    constructor
    · rintro ⟨hcovers, hhow⟩
      exact ⟨hcovers, by omega, hhow⟩
    · exact fun h => ⟨h.1, h.2.2⟩
  have hmeet := hapart
  unfold Apart at hmeet
  constructor
  · rintro ⟨p, hp, hcovers, rfl⟩
    rw [covers_iff] at hcovers
    rcases (mem_carve hapart).mp hp with ⟨hleft, rfl⟩ | ⟨hright, rfl⟩
    · have hhigh : address < e.base + (new.base - e.base) := hcovers.2
      have hlow : e.base ≤ address := hcovers.1
      exact ⟨by omega, by omega, rfl⟩
    · have hhigh : address < new.finish + (e.finish - new.finish) := hcovers.2
      have hlow : new.finish ≤ address := hcovers.1
      exact ⟨by omega, by omega, (behind_mapped hapart hlow).symm⟩
  · rintro ⟨⟨hlow, hhigh⟩, houtside, rfl⟩
    by_cases hbefore : address < new.base
    · refine ⟨_, (mem_carve hapart).mpr (.inl ⟨by omega, rfl⟩), ?_, rfl⟩
      rw [covers_iff]
      refine ⟨hlow, ?_⟩
      show address < e.base + (new.base - e.base)
      omega
    · have hbehind : new.finish ≤ address := by omega
      refine ⟨_, (mem_carve hapart).mpr (.inr ⟨by omega, rfl⟩), ?_, behind_mapped hapart hbehind⟩
      rw [covers_iff]
      refine ⟨hbehind, ?_⟩
      show address < new.finish + (e.finish - new.finish)
      omega

/-! ## Replacing a range -/

/-- The registry: a table of its full size, whose live mappings do not meet. -/
structure Registry where
  mappings : List SharedForkMapping
  count : Nat
  sized : mappings.length = MAX_MAPPINGS
  counted : count ≤ MAX_MAPPINGS
  partition : (mappings.take count).Pairwise Apart

namespace Registry

def live (r : Registry) : List SharedForkMapping := r.mappings.take r.count

/-- How the registry maps an address. -/
def mappedAt (r : Registry) (address : Nat) : Option Mapped := valueAt covers mapped r.live address

/-- What stays of the live mappings under a new one. -/
def pieces (r : Registry) (new : SharedForkMapping) : List SharedForkMapping :=
  r.live.flatMap (carve new)

/-- The new mapping is one, no sum overflows, and the partition that results fits. -/
structure Takes (r : Registry) (new : SharedForkMapping) : Prop where
  base : new.base ≠ 0
  len : new.len ≠ 0
  finish : new.finish < 2 ^ 64
  fits : ∀ e ∈ r.live, Fits new e
  room : (r.pieces new).length + 1 ≤ MAX_MAPPINGS

theorem live_length (r : Registry) : r.live.length = r.count := by
  have hsized := r.sized
  have hcounted := r.counted
  unfold live
  rw [List.length_take]
  omega

end Registry

theorem replaceMappingRange_refuses {r : Registry} (h : ¬ r.Takes new) :
    replaceMappingRange new r.mappings r.count = some (false, r.mappings, r.count) := by
  unfold replaceMappingRange
  by_cases hfinish : new.finish < 2 ^ 64
  · have hadd : checkedAdd new.base new.len = some new.finish := checkedAdd_eq_some hfinish
    rw [hadd]
    dsimp only
    split_ifs with hguard hpreflight
    · rfl
    · rfl
    exfalso
    rw [Bool.not_eq_false, preflight_iff] at hpreflight
    rw [not_or, not_or] at hguard
    refine h ⟨hguard.1, hguard.2.1, hfinish, hpreflight.1, ?_⟩
    rcases hpreflight.2 with hempty | hroom
    · have hlive : r.live = [] := hempty
      unfold Registry.pieces
      rw [hlive]
      show 0 + 1 ≤ MAX_MAPPINGS
      decide
    · rw [r.sized] at hroom
      unfold Registry.pieces Registry.live
      omega
  · have hadd : checkedAdd new.base new.len = none :=
      checkedAdd_eq_none_iff.mpr (Nat.not_lt.mp hfinish)
    rw [hadd]

theorem replaceMappingRange_takes {r : Registry} (h : r.Takes new) :
    ∃ r' : Registry, replaceMappingRange new r.mappings r.count =
        some (true, r'.mappings, r'.count) ∧ r'.live.Perm (new :: r.pieces new) := by
  have hadd : checkedAdd new.base new.len = some new.finish := checkedAdd_eq_some h.finish
  have hroom : (r.pieces new).length + 1 ≤ MAX_MAPPINGS := h.room
  have hsized := r.sized
  have hcounted := r.counted
  have hlength := r.live_length
  have hpreflight : preflight new new.finish r.mappings.length (r.mappings.take r.count) 1 = true := by
    rw [preflight_iff, hsized]
    refine ⟨h.fits, .inr ?_⟩
    rw [Nat.add_comm]
    exact hroom
  have hsplits : r.live.countP (splits new) ≤ (r.mappings.drop r.count).length := by
    rw [List.length_drop]
    have hneeds : r.live.countP (splits new) = 0 ∨
        r.live.length + r.live.countP (splits new) ≤ (r.pieces new).length :=
      splits_room r.partition
    omega
  obtain ⟨live, free, hrun, hperm, htable⟩ := carveRange_spec (2 * r.count) [] r.live
    (r.mappings.drop r.count) h.fits
    (by have hcount := List.countP_le_length (p := splits new) (l := r.live); omega) hsplits
  have hmappings : [] ++ r.live ++ r.mappings.drop r.count = r.mappings :=
    List.take_append_drop r.count r.mappings
  rw [hmappings] at hrun htable
  rw [List.length_nil, Nat.zero_add, hlength] at hrun
  rw [List.nil_append] at hperm
  have hlive : live.length + 1 ≤ MAX_MAPPINGS := by
    rw [hperm.length_eq]
    exact hroom
  cases free with
  | nil =>
    rw [List.append_nil] at htable
    omega
  | cons slot free =>
    have hstore : store (live ++ slot :: free) live.length new = some (live ++ new :: free) :=
      store_end live free new
    have htake : (live ++ new :: free).take (live.length + 1) = live ++ [new] := by
      rw [List.take_append, List.take_of_length_le (Nat.le_succ _)]
      simp
    have hordered : (live ++ [new]).Perm (new :: r.pieces new) :=
      (List.perm_append_singleton new live).trans (hperm.cons new)
    refine ⟨⟨live ++ new :: free, live.length + 1, ?_, hlive, ?_⟩, ?_, ?_⟩
    · rw [← hsized, ← htable]
      simp
    · rw [htake]
      exact (hordered.pairwise_iff Apart.symm).mpr (pieces_pairwise r.partition)
    · unfold replaceMappingRange
      rw [hadd]
      dsimp only
      rw [if_neg (not_or.mpr ⟨h.base, not_or.mpr ⟨h.len, by omega⟩⟩), hpreflight,
        if_neg nofun, hrun]
      simp only [Option.bind_eq_bind, Option.bind_some, hstore]
    · show ((live ++ new :: free).take (live.length + 1)).Perm _
      rw [htake]
      exact hordered

/-- Replacing a range never panics.  It refuses a mapping that the registry has no place for, and
changes nothing; otherwise the live mappings are a partition again, which maps the new range as the
new mapping does, and every other address as before. -/
theorem replace_partitions (r : Registry) (new : SharedForkMapping) :
    ∃ (taken : Bool) (r' : Registry), replaceMappingRange new r.mappings r.count =
        some (taken, r'.mappings, r'.count) ∧
      (taken = true ↔ r.Takes new) ∧
      (taken = false → r' = r) ∧
      (taken = true → r'.live.Perm (new :: r.pieces new) ∧ ∀ address, r'.mappedAt address =
          if new.covers address then some (new.mapped address) else r.mappedAt address) := by
  by_cases h : r.Takes new
  · obtain ⟨r', hrun, hperm⟩ := replaceMappingRange_takes h
    refine ⟨true, r', hrun, ⟨fun _ => h, fun _ => rfl⟩, fun hfalse => (nomatch hfalse), fun _ =>
      ⟨hperm, fun address => ?_⟩⟩
    exact valueAt_overwrite (r.partition.imp exclusive_of_apart) (r'.partition.imp exclusive_of_apart)
      hperm (fun e _ address how => carve_mapped) address
  · exact ⟨false, r, replaceMappingRange_refuses h, ⟨fun htrue => (nomatch htrue), fun htakes =>
      absurd htakes h⟩, fun _ => rfl, nofun⟩

/-- The registry before anything is mapped. -/
def Registry.empty : Registry where
  mappings := List.replicate MAX_MAPPINGS .default
  count := 0
  sized := List.length_replicate
  counted := Nat.zero_le _
  partition := .nil

/-- A page at address 0 would fit, and is refused. -/
theorem replace_refuses_null :
    replaceMappingRange { SharedForkMapping.default with len := 4096 } Registry.empty.mappings
        Registry.empty.count = some (false, Registry.empty.mappings, Registry.empty.count) ∧
      ({ SharedForkMapping.default with len := 4096 } : SharedForkMapping).finish < 2 ^ 64 ∧
      (Registry.empty.pieces { SharedForkMapping.default with len := 4096 }).length + 1 ≤
        MAX_MAPPINGS := by
  refine ⟨replaceMappingRange_refuses fun h => h.base rfl, by decide, ?_⟩
  show 0 + 1 ≤ MAX_MAPPINGS
  decide

end Kinakaze.Mappings
