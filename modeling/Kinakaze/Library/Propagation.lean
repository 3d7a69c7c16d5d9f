import Mathlib.Algebra.Ring.Nat
import Mathlib.Algebra.Ring.Int.Defs
import Mathlib.Data.Finset.Card
import Mathlib.Data.Nat.Find
import Mathlib.Order.Bounds.Basic

/-!
# Values that pass along edges

An edge `(owner, donor)` raises the value of `owner` to that of `donor`.  Sweeps over all
edges, as many as there are nodes, give each node the greatest value of the nodes that lead to
it, whatever the edges are.
-/

namespace Kinakaze.Library.Propagation

open Relation

variable {ι α : Type} [DecidableEq ι] [LinearOrder α]

/-- One edge. -/
def relax (values : ι → α) (edge : ι × ι) : ι → α :=
  if values edge.1 < values edge.2 then Function.update values edge.1 (values edge.2) else values

/-- All edges in their order. -/
def sweep (edges : List (ι × ι)) (values : ι → α) : ι → α := edges.foldl relax values

/-- `donor` raises `owner` at once. -/
def Raises (edges : List (ι × ι)) (donor owner : ι) : Prop := (owner, donor) ∈ edges

theorem le_relax (values : ι → α) (edge : ι × ι) (i : ι) : values i ≤ relax values edge i := by
  unfold relax
  split
  · rename_i hlt
    by_cases hi : i = edge.1
    · subst hi
      rw [Function.update_self]
      exact le_of_lt hlt
    · rw [Function.update_of_ne hi]
  · exact le_refl _

theorem relax_raises (values : ι → α) (edge : ι × ι) :
    values edge.2 ≤ relax values edge edge.1 := by
  unfold relax
  split
  · rw [Function.update_self]
  · rename_i hnot
    exact not_lt.mp hnot

theorem le_sweep (edges : List (ι × ι)) (values : ι → α) (i : ι) :
    values i ≤ sweep edges values i := by
  induction edges generalizing values with
  | nil => exact le_refl _
  | cons edge edges ih => exact le_trans (le_relax values edge i) (ih (relax values edge))

variable {edges : List (ι × ι)}

/-- One sweep takes every value over one edge. -/
theorem sweep_raises (values : ι → α) {donor owner : ι}
    (h : Raises edges donor owner) : values donor ≤ sweep edges values owner := by
  induction edges generalizing values with
  | nil => cases h
  | cons edge edges ih =>
    rcases List.mem_cons.mp h with rfl | h
    · exact le_trans (relax_raises values (owner, donor)) (le_sweep edges _ owner)
    · exact le_trans (le_relax values edge donor) (ih (relax values edge) h)

/-- The value of a node is one that leads to it. -/
def Led (edges : List (ι × ι)) (base values : ι → α) : Prop :=
  ∀ i, ∃ source, ReflTransGen (Raises edges) source i ∧ values i = base source

theorem Led.swept {all : List (ι × ι)} {base values : ι → α} (h : Led all base values)
    (hsub : ∀ edge ∈ edges, edge ∈ all) : Led all base (sweep edges values) := by
  induction edges generalizing values with
  | nil => exact h
  | cons edge edges ih =>
    apply ih _ (fun e he => hsub e (List.mem_cons_of_mem _ he))
    intro i
    unfold relax
    split
    · by_cases hi : i = edge.1
      · subst hi
        obtain ⟨source, hleads, hvalue⟩ := h edge.2
        rw [Function.update_self]
        exact ⟨source, hleads.tail (hsub edge List.mem_cons_self), hvalue⟩
      · rw [Function.update_of_ne hi]
        exact h i
    · exact h i

theorem Led.sweeps (edges : List (ι × ι)) (base : ι → α) (turns : Nat) :
    Led edges base ((sweep edges)^[turns] base) := by
  induction turns with
  | zero => exact fun i => ⟨i, .refl, rfl⟩
  | succ turns ih =>
    rw [Function.iterate_succ_apply']
    exact ih.swept fun edge hedge => hedge

/-- A way of so many edges. -/
def Way (edges : List (ι × ι)) (source target : ι) (length : Nat) : Prop :=
  ∃ node : Nat → ι, node 0 = source ∧ node length = target ∧
    ∀ k, k < length → Raises edges (node k) (node (k + 1))

theorem Way.raises {base : ι → α} {source target : ι} {length : Nat}
    (h : Way edges source target length) {turns : Nat} (hturns : length ≤ turns) :
    base source ≤ (sweep edges)^[turns] base target := by
  obtain ⟨node, rfl, rfl, hedges⟩ := h
  -- so many sweeps have taken the value so far along the way
  have hfar : ∀ k, k ≤ length → base (node 0) ≤ (sweep edges)^[k] base (node k) := by
    intro k
    induction k with
    | zero => exact fun _ => le_refl _
    | succ k ih =>
      intro hk
      rw [Function.iterate_succ_apply']
      exact le_trans (ih (by omega)) (sweep_raises _ (hedges k hk))
  have hmore : ∀ more, base (node 0) ≤ (sweep edges)^[length + more] base (node length) := by
    intro more
    induction more with
    | zero => exact hfar length (le_refl _)
    | succ more ih =>
      rw [← Nat.add_assoc, Function.iterate_succ_apply']
      exact le_trans ih (le_sweep edges _ _)
  have hsum : length + (turns - length) = turns := by omega
  exact hsum ▸ hmore (turns - length)

omit [DecidableEq ι] in
theorem exists_way {source target : ι}
    (h : ReflTransGen (Raises edges) source target) : ∃ length, Way edges source target length := by
  induction h with
  | refl => exact ⟨0, fun _ => source, rfl, rfl, fun k hk => absurd hk (Nat.not_lt_zero k)⟩
  | @tail middle last _ hstep ih =>
    obtain ⟨length, node, hfirst, hlast, hedges⟩ := ih
    refine ⟨length + 1, fun k => if k ≤ length then node k else last, ?_, ?_, ?_⟩
    · dsimp only
      rw [if_pos (Nat.zero_le _), hfirst]
    · dsimp only
      rw [if_neg (by omega)]
    · intro k hk
      dsimp only
      by_cases hend : k = length
      · subst hend
        rw [if_pos (le_refl _), if_neg (by omega), hlast]
        exact hstep
      · rw [if_pos (by omega), if_pos (by omega)]
        exact hedges k (by omega)

omit [DecidableEq ι] in
/-- A way that comes to a node twice can leave out the loop. -/
theorem Way.shorten {source target : ι} {length i j : Nat}
    {node : Nat → ι} (hfirst : node 0 = source) (hlast : node length = target)
    (hedges : ∀ k, k < length → Raises edges (node k) (node (k + 1))) (hij : i < j)
    (hj : j ≤ length) (hsame : node i = node j) : Way edges source target (length - (j - i)) := by
  refine ⟨fun k => if k ≤ i then node k else node (k + (j - i)), ?_, ?_, ?_⟩
  · dsimp only
    rw [if_pos (Nat.zero_le _), hfirst]
  · dsimp only
    by_cases hend : length - (j - i) ≤ i
    · have hj' : j = length := by omega
      subst hj'
      have hi : j - (j - i) = i := by omega
      rw [hi, if_pos (le_refl _), hsame, hlast]
    · have hsum : length - (j - i) + (j - i) = length := by omega
      rw [if_neg hend, hsum, hlast]
  · intro k hk
    dsimp only
    by_cases hlow : k + 1 ≤ i
    · rw [if_pos (by omega), if_pos hlow]
      exact hedges k (by omega)
    rw [if_neg hlow]
    by_cases hki : k ≤ i
    · have hk' : k = i := by omega
      subst hk'
      have hsum : k + 1 + (j - k) = j + 1 := by omega
      rw [if_pos hki, hsum, hsame]
      exact hedges j (by omega)
    · have hsum : k + 1 + (j - i) = k + (j - i) + 1 := by omega
      rw [if_neg hki, hsum]
      exact hedges _ (by omega)

omit [DecidableEq ι] in
/-- A shortest way passes a node once, so it is shorter than there are nodes. -/
theorem exists_short_way {nodes : Finset ι}
    (hnodes : ∀ edge ∈ edges, edge.1 ∈ nodes ∧ edge.2 ∈ nodes) {source target : ι}
    (h : ReflTransGen (Raises edges) source target) (hsource : source ∈ nodes) :
    ∃ length, length < nodes.card ∧ Way edges source target length := by
  classical
  have hway := exists_way h
  have hshort := Nat.find_spec hway
  refine ⟨Nat.find hway, ?_, hshort⟩
  by_contra hlong
  obtain ⟨node, hfirst, hlast, hedges⟩ := hshort
  have hin : ∀ k ∈ Finset.range (Nat.find hway + 1), node k ∈ nodes := by
    intro k hk
    cases k with
    | zero => exact hfirst ▸ hsource
    | succ k => exact (hnodes _ (hedges k (by rw [Finset.mem_range] at hk; omega))).1
  obtain ⟨i, hi, j, hj, hne, hsame⟩ := Finset.exists_ne_map_eq_of_card_lt_of_maps_to
    (by rw [Finset.card_range]; omega) hin
  rw [Finset.mem_range] at hi hj
  rcases Nat.lt_or_gt_of_ne hne with hlt | hlt
  · have hless := Way.shorten hfirst hlast hedges hlt (by omega) hsame
    exact absurd hless (Nat.find_min hway (by omega))
  · have hless := Way.shorten hfirst hlast hedges hlt (by omega) hsame.symm
    exact absurd hless (Nat.find_min hway (by omega))

/-- After as many sweeps as there are nodes, a node has the greatest value of those that lead to
it. -/
theorem sweeps_isGreatest {nodes : Finset ι}
    (hnodes : ∀ edge ∈ edges, edge.1 ∈ nodes ∧ edge.2 ∈ nodes) (base : ι → α) {turns : Nat}
    (hturns : nodes.card ≤ turns) {target : ι} (htarget : target ∈ nodes) :
    IsGreatest {value | ∃ source, ReflTransGen (Raises edges) source target ∧ base source = value}
      ((sweep edges)^[turns] base target) := by
  constructor
  · obtain ⟨source, hleads, hvalue⟩ := Led.sweeps edges base turns target
    exact ⟨source, hleads, hvalue.symm⟩
  · rintro value ⟨source, hleads, rfl⟩
    have hsource : source ∈ nodes := by
      cases hleads.cases_head with
      | inl heq => exact heq ▸ htarget
      | inr hstep =>
        obtain ⟨next, hraises, -⟩ := hstep
        exact (hnodes _ hraises).2
    obtain ⟨length, hlength, hway⟩ := exists_short_way hnodes hleads hsource
    exact hway.raises (by omega)

end Kinakaze.Library.Propagation
