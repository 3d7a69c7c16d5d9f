import Mathlib.Algebra.Order.BigOperators.Group.Finset

/-!
# Searching a graph for a node

A depth-first search with a stack of nodes to look at and the list of nodes
already seen.  The graph is given by the neighbours of a node; only the nodes
of a finite set have any.
-/

namespace Kinakaze.Library

section Search

variable {ν : Type} [DecidableEq ν] (next : ν → List ν) (goal : ν)

/-- Look at the node on top of the stack until the stack is empty, `fuel`
nodes at most.  The neighbours of a node are pushed in order. -/
def search : Nat → List ν → List ν → Option Bool
  | _, [], _ => some false
  | 0, _ :: _, _ => none
  | fuel + 1, node :: pending, visited =>
    if node = goal then some true
    else if node ∈ visited then search fuel pending visited
    else search fuel ((next node).reverse ++ pending) (node :: visited)

/-- An upper bound for the nodes still to be looked at: those on the stack, and
the neighbours of the nodes of `support` not seen yet. -/
def potential (support : Finset ν) (pending visited : List ν) : Nat :=
  pending.length + ∑ node ∈ support with node ∉ visited, (next node).length

variable {next} {goal}

theorem potential_visit (support : Finset ν) (hsupport : ∀ node, node ∉ support → next node = [])
    (node : ν) (pending visited : List ν) (hnew : node ∉ visited) :
    potential next support ((next node).reverse ++ pending) (node :: visited) =
      potential next support pending visited := by
  unfold potential
  by_cases hmem : node ∈ support
  · have hfilter : (support.filter fun other => other ∉ node :: visited) =
        (support.filter fun other => other ∉ visited).erase node := by
      ext other
      simp only [Finset.mem_filter, List.mem_cons, not_or, Finset.mem_erase]
      tauto
    rw [hfilter, List.length_append, List.length_reverse,
      ← Finset.add_sum_erase _ _ (Finset.mem_filter.mpr ⟨hmem, hnew⟩)]
    omega
  have hfilter : (support.filter fun other => other ∉ node :: visited) =
      support.filter fun other => other ∉ visited := by
    ext other
    simp only [Finset.mem_filter, List.mem_cons, not_or]
    constructor
    · rintro ⟨hin, -, hout⟩
      exact ⟨hin, hout⟩
    · rintro ⟨hin, hout⟩
      refine ⟨hin, ?_, hout⟩
      rintro rfl
      exact hmem hin
  rw [hfilter, hsupport node hmem, List.reverse_nil, List.nil_append]

/-- The search ends: each node looked at lowers the potential. -/
theorem search_terminates (support : Finset ν)
    (hsupport : ∀ node, node ∉ support → next node = []) (fuel : Nat) (pending visited : List ν)
    (hfuel : potential next support pending visited ≤ fuel) :
    (search next goal fuel pending visited).isSome := by
  induction fuel generalizing pending visited with
  | zero =>
    cases pending with
    | nil => rfl
    | cons node pending =>
      simp only [potential, List.length_cons] at hfuel
      omega
  | succ fuel ih =>
    cases pending with
    | nil => rfl
    | cons node pending =>
      rw [search]
      split_ifs with hgoal hseen
      · rfl
      · apply ih
        simp only [potential, List.length_cons] at hfuel ⊢
        omega
      · apply ih
        rw [potential_visit support hsupport node pending visited hseen]
        simp only [potential, List.length_cons] at hfuel ⊢
        omega

/-- A node can be reached from one of the nodes of a list. -/
def ReachedFrom (next : ν → List ν) (starts : List ν) (node : ν) : Prop :=
  ∃ start ∈ starts, Relation.ReflTransGen (fun a b => b ∈ next a) start node

variable {fuel : Nat} {visited pending : List ν}

theorem search_sound
    (h : search next goal fuel pending visited = some true) : ReachedFrom next pending goal := by
  induction fuel generalizing pending visited with
  | zero =>
    cases pending with
    | nil | cons => simp [search] at h
  | succ fuel ih =>
    cases pending with
    | nil => simp [search] at h
    | cons node pending =>
      rw [search] at h
      split_ifs at h with hgoal hseen
      · exact ⟨node, by simp, hgoal ▸ Relation.ReflTransGen.refl⟩
      · obtain ⟨start, hmem, hpath⟩ := ih h
        exact ⟨start, by simp [hmem], hpath⟩
      obtain ⟨start, hmem, hpath⟩ := ih h
      rcases List.mem_append.mp hmem with hnext | hrest
      · have hstep : start ∈ next node := List.mem_reverse.mp hnext
        exact ⟨node, by simp, Relation.ReflTransGen.head hstep hpath⟩
      · exact ⟨start, by simp [hrest], hpath⟩

/-- What has been seen is not the goal, and its neighbours have been seen or
are on the stack. -/
def Explored (next : ν → List ν) (goal : ν) (pending visited : List ν) : Prop :=
  ∀ node ∈ visited, node ≠ goal ∧ ∀ other ∈ next node, other ∈ visited ∨ other ∈ pending

omit [DecidableEq ν] in
theorem Explored.visit {node : ν}
    (h : Explored next goal (node :: pending) visited) (hgoal : node ≠ goal) :
    Explored next goal ((next node).reverse ++ pending) (node :: visited) := by
  intro seen hseen
  rcases List.mem_cons.mp hseen with rfl | hseen
  · exact ⟨hgoal, fun other hother => by simp [hother]⟩
  obtain ⟨hne, hnext⟩ := h seen hseen
  refine ⟨hne, fun other hother => ?_⟩
  rcases hnext other hother with hin | hin
  · simp [hin]
  · rcases List.mem_cons.mp hin with rfl | hin
    · simp
    · simp [hin]

omit [DecidableEq ν] in
/-- With an empty stack everything that can be reached has been seen. -/
theorem Explored.seen (h : Explored next goal [] visited) {start node : ν}
    (hstart : start ∈ visited) (hpath : Relation.ReflTransGen (fun a b => b ∈ next a) start node) :
    node ∈ visited := by
  induction hpath with
  | refl => exact hstart
  | tail _ hstep ih =>
    rcases (h _ ih).2 _ hstep with hin | hin
    · exact hin
    · simp at hin

omit [DecidableEq ν] in
theorem Explored.not_reached (h : Explored next goal [] visited) :
    ¬ ReachedFrom next (visited ++ []) goal := by
  rintro ⟨start, hmem, hpath⟩
  have hseen := h.seen (by simpa using hmem) hpath
  exact (h goal hseen).1 rfl

theorem search_complete (hexplored : Explored next goal pending visited)
    (h : search next goal fuel pending visited = some false) :
    ¬ ReachedFrom next (visited ++ pending) goal := by
  induction fuel generalizing pending visited with
  | zero =>
    cases pending with
    | nil => exact hexplored.not_reached
    | cons node pending => simp [search] at h
  | succ fuel ih =>
    cases pending with
    | nil => exact hexplored.not_reached
    | cons node pending =>
      rw [search] at h
      split_ifs at h with hgoal hseen
      · simp at h
      · have hless : Explored next goal pending visited := by
          intro seen hmem
          obtain ⟨hne, hnext⟩ := hexplored seen hmem
          refine ⟨hne, fun other hother => ?_⟩
          rcases hnext other hother with hin | hin
          · exact Or.inl hin
          · rcases List.mem_cons.mp hin with rfl | hin
            · exact Or.inl hseen
            · exact Or.inr hin
        rintro ⟨start, hmem, hpath⟩
        apply ih hless h
        refine ⟨start, ?_, hpath⟩
        simp only [List.mem_append, List.mem_cons] at hmem ⊢
        rcases hmem with hin | rfl | hin
        · exact Or.inl hin
        · exact Or.inl hseen
        · exact Or.inr hin
      · rintro ⟨start, hmem, hpath⟩
        apply ih (hexplored.visit hgoal) h
        refine ⟨start, ?_, hpath⟩
        simp only [List.mem_append, List.mem_cons] at hmem ⊢
        tauto

theorem search_eq_true_iff {answer : Bool} (h : search next goal fuel pending [] = some answer) :
    answer = true ↔ ReachedFrom next pending goal := by
  cases answer with
  | true => exact ⟨fun _ => search_sound h, fun _ => rfl⟩
  | false =>
    have hexplored : Explored next goal pending [] := by
      intro node hnode
      simp at hnode
    have hnot := search_complete hexplored h
    constructor
    · intro hfalse
      simp at hfalse
    · intro hreached
      exact absurd (by simpa using hreached) hnot

end Search

end Kinakaze.Library
