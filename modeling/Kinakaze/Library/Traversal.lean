import Mathlib.Algebra.Order.BigOperators.Group.List
import Mathlib.Algebra.Order.Ring.Nat

/-!
# Orders in which a graph is listed

A graph is given by the list of successors of each node.  Two searches list the
nodes reachable from a root: one with a queue, one by recursion with the list of
what it has met.  Both orders are fixed by a rule for the next node, which reads
off what is listed so far: breadth first takes the first unlisted successor of
the *earliest* listed node having one, depth first that of the *latest*.

* `Follows.unique`: a rule lists at most one order.
* `Graph.closure_follows`: the queue lists breadth first.
* `Graph.visit_follows`: the recursion lists depth first.
-/

namespace Kinakaze.Library

variable {α : Type}

/-! ## Rules -/

/-- `listed` starts with `root`, and at each of its ends the rule names what comes next. -/
structure Follows (rule : List α → Option α) (root : α) (listed : List α) : Prop where
  head : listed.head? = some root
  next : ∀ k, 0 < k → k ≤ listed.length → rule (listed.take k) = listed[k]?

/-- From `start` on, `stop` is listed by the rule. -/
structure Extends (rule : List α → Option α) (start stop : List α) : Prop where
  isPrefix : start <+: stop
  next : ∀ k, start.length ≤ k → k < stop.length → rule (stop.take k) = stop[k]?

variable {rule rule' : List α → Option α} {root a : α} {l m n : List α}

theorem Follows.unique (hl : Follows rule root l) (hm : Follows rule root m) : l = m := by
  have htake : ∀ k, l.take k = m.take k := by
    intro k
    induction k with
    | zero => simp
    | succ k ih =>
      have hget : l[k]? = m[k]? := by
        rcases Nat.eq_zero_or_pos k with rfl | hk
        · rw [← List.head?_eq_getElem?, ← List.head?_eq_getElem?, hl.head, hm.head]
        have hlen := congrArg List.length ih
        simp only [List.length_take] at hlen
        by_cases hle : k ≤ l.length
        · rw [← hl.next k hk hle, ← hm.next k hk (by omega), ih]
        · rw [List.getElem?_eq_none (by omega), List.getElem?_eq_none (by omega)]
      rw [List.take_succ, List.take_succ, ih, hget]
  have h := htake (max l.length m.length)
  rwa [List.take_of_length_le (Nat.le_max_left ..), List.take_of_length_le (Nat.le_max_right ..)]
    at h

/-- Two orders of one root are the same when their rules agree along one of them. -/
theorem Follows.eq_iff (hl : Follows rule root l) (hm : Follows rule' root m) :
    m = l ↔ ∀ k, 0 < k → k ≤ l.length → rule' (l.take k) = rule (l.take k) := by
  constructor
  · rintro rfl k hk hle
    rw [hl.next k hk hle, hm.next k hk hle]
  · intro hagree
    refine hm.unique ⟨hl.head, fun k hk hle => ?_⟩
    rw [hagree k hk hle, hl.next k hk hle]

theorem Extends.refl (rule : List α → Option α) (l : List α) : Extends rule l l :=
  ⟨List.prefix_rfl, fun _ hle hlt => absurd hlt (Nat.not_lt.mpr hle)⟩

theorem Extends.trans (h : Extends rule l m) (h' : Extends rule m n) : Extends rule l n := by
  refine ⟨h.isPrefix.trans h'.isPrefix, fun k hle hlt => ?_⟩
  by_cases hk : k < m.length
  · obtain ⟨rest, rfl⟩ := h'.isPrefix
    rw [List.take_append_of_le_length hk.le, List.getElem?_append_left hk]
    exact h.next k hle hk
  · exact h'.next k (Nat.not_lt.mp hk) hlt

theorem Extends.step (h : rule l = some a) : Extends rule l (l ++ [a]) := by
  refine ⟨List.prefix_append _ _, fun k hle hlt => ?_⟩
  obtain rfl : k = l.length := by
    simp only [List.length_append, List.length_singleton] at hlt
    omega
  simpa using h

/-- A listing that the rule extends from its root and then leaves follows it. -/
theorem Extends.follows (h : Extends rule [root] l) (hend : rule l = none) :
    Follows rule root l := by
  obtain ⟨rest, rfl⟩ := h.isPrefix
  refine ⟨rfl, fun k hk hle => ?_⟩
  rcases Nat.lt_or_eq_of_le hle with hlt | rfl
  · exact h.next k hk hlt
  · simpa using hend

/-! ## The two searches -/

section Searches

variable [DecidableEq α] (deps : α → List α)

/-- The first successor of the nodes of `looked` that is not listed. -/
def firstUnlisted (looked listed : List α) : Option α :=
  (looked.flatMap deps).find? (· ∉ listed)

/-- Breadth first: look from the earliest listed node on. -/
def breadthNext (listed : List α) : Option α := firstUnlisted deps listed listed

/-- Depth first: look from the latest listed node back. -/
def depthNext (listed : List α) : Option α := firstUnlisted deps listed.reverse listed

/-- The queue: take its first node, list it if it is new and queue its successors. -/
def closure : Nat → List α → List α → List α
  | 0, listed, _ => listed
  | _ + 1, listed, [] => listed
  | fuel + 1, listed, a :: pending =>
    if a ∈ listed then closure fuel listed pending
    else closure fuel (listed ++ [a]) (pending ++ deps a)

/-- The recursion: list the node if it is new, then visit its successors in order. -/
def visit : Nat → List α → α → List α
  | 0, listed, _ => listed
  | fuel + 1, listed, a =>
    if a ∈ listed then listed else (deps a).foldl (visit fuel) (listed ++ [a])

variable {deps}

theorem firstUnlisted_eq_some {looked : List α} (h : firstUnlisted deps looked l = some a) :
    (∃ b ∈ looked, a ∈ deps b) ∧ a ∉ l := by
  have hmem := List.mem_of_find?_eq_some h
  have hnew := List.find?_some h
  simp only [decide_eq_true_eq, List.mem_flatMap] at hmem hnew
  exact ⟨hmem, hnew⟩

theorem firstUnlisted_eq_none {looked : List α} :
    firstUnlisted deps looked l = none ↔ ∀ b ∈ looked, ∀ a ∈ deps b, a ∈ l := by
  simp only [firstUnlisted, List.find?_eq_none, List.mem_flatMap, decide_eq_true_eq, not_not]
  exact ⟨fun h b hb a ha => h a ⟨b, hb, ha⟩, fun h a ⟨b, hb, ha⟩ => h b hb a ha⟩

/-- Both rules name an unlisted successor of a listed node, while there is one. -/
structure Lists (deps : α → List α) (rule : List α → Option α) : Prop where
  some_of : ∀ l a, rule l = some a → (∃ b ∈ l, a ∈ deps b) ∧ a ∉ l
  none_of : ∀ l, rule l = none → ∀ b ∈ l, ∀ a ∈ deps b, a ∈ l

theorem breadthNext_lists : Lists deps (breadthNext deps) :=
  ⟨fun _ _ h => firstUnlisted_eq_some h, fun _ h => firstUnlisted_eq_none.mp h⟩

theorem depthNext_lists : Lists deps (depthNext deps) :=
  ⟨fun _ _ h => by simpa using firstUnlisted_eq_some h,
    fun _ h => by simpa using firstUnlisted_eq_none.mp h⟩

theorem Follows.getElem?_succ (hf : Follows rule root l) {k : Nat} (hk : 0 < k)
    (ha : l[k]? = some a) : rule (l.take k) = some a :=
  (hf.next k hk (by have := (List.getElem?_eq_some_iff.mp ha).1; omega)).trans ha

/-- What an order lists is what the root reaches. -/
theorem Follows.mem_iff (hrule : Lists deps rule) (hf : Follows rule root l) :
    a ∈ l ↔ Relation.ReflTransGen (fun b c => c ∈ deps b) root a := by
  have hroot : root ∈ l := List.mem_of_mem_head? (by rw [hf.head]; rfl)
  constructor
  · intro ha
    obtain ⟨i, hi⟩ := List.mem_iff_getElem?.mp ha
    clear ha
    induction i using Nat.strongRecOn generalizing a with
    | ind i ih =>
      rcases Nat.eq_zero_or_pos i with rfl | hpos
      · rw [← List.head?_eq_getElem?, hf.head] at hi
        cases hi
        exact .refl
      obtain ⟨b, hb, hab⟩ := (hrule.some_of _ _ (hf.getElem?_succ hpos hi)).1
      obtain ⟨j, hj⟩ := List.mem_iff_getElem?.mp hb
      obtain ⟨hjlt, -⟩ := List.getElem?_eq_some_iff.mp hj
      have hji : j < i := by
        simp only [List.length_take] at hjlt
        omega
      rw [List.getElem?_take_of_lt hji] at hj
      exact (ih j hji hj).tail hab
  · intro hreach
    have hpos : 0 < l.length := List.length_pos_of_mem hroot
    have hend := hf.next l.length hpos le_rfl
    rw [List.take_length, List.getElem?_eq_none le_rfl] at hend
    induction hreach with
    | refl => exact hroot
    | tail _ hbc ih => exact hrule.none_of _ hend _ ih _ hbc

/-- Breadth first, what the root leads to directly comes before everything else. -/
theorem Follows.direct_first (hf : Follows (breadthNext deps) root l) {b : α}
    (hb : b ∈ deps root) (ha : a ∈ l) (hroot : a ≠ root) (hab : a ∉ deps root) :
    l.idxOf b < l.idxOf a := by
  have hlt := List.idxOf_lt_length_of_mem ha
  have hget : l[l.idxOf a]? = some a := by
    rw [List.getElem?_eq_getElem hlt, List.getElem_idxOf hlt]
  have hpos : 0 < l.idxOf a := by
    rcases Nat.eq_zero_or_pos (l.idxOf a) with h0 | h
    · rw [h0, ← List.head?_eq_getElem?, hf.head] at hget
      exact absurd (Option.some.inj hget).symm hroot
    · exact h
  have hnext := hf.getElem?_succ hpos hget
  -- While a direct successor is unlisted, the rule takes it from the root.
  by_contra hle
  have hnew : b ∉ l.take (l.idxOf a) := by
    intro hmem
    exact hle ((List.mem_take_iff_idxOf_lt (List.mem_of_mem_take hmem)).mp hmem)
  obtain ⟨rest, hrest⟩ : ∃ rest, l.take (l.idxOf a) = root :: rest := by
    cases hl : l with
    | nil => simp [hl] at hlt
    | cons c rest =>
      have hhead := hf.head
      rw [hl] at hhead
      cases hhead
      rw [hl] at hpos
      obtain ⟨k, hk⟩ := Nat.exists_eq_succ_of_ne_zero hpos.ne'
      exact ⟨rest.take k, by rw [hk]; rfl⟩
  rw [breadthNext, firstUnlisted] at hnext
  rw [hrest, List.flatMap_cons, List.find?_append] at hnext
  cases hfind : (deps root).find? (· ∉ root :: rest) with
  | none =>
    have hall := List.find?_eq_none.mp hfind b hb
    rw [hrest] at hnew
    simp only [decide_eq_true_eq, not_not] at hall
    exact hnew hall
  | some c =>
    rw [hfind] at hnext
    cases hnext
    exact hab (List.mem_of_find?_eq_some hfind)

/-- `nodes` has everything the searches can meet. -/
def ClosedUnder (deps : α → List α) (nodes : List α) : Prop :=
  ∀ a ∈ nodes, ∀ b ∈ deps a, b ∈ nodes

/-- The nodes left to list. -/
def unlisted (nodes listed : List α) : List α := nodes.filter (· ∉ listed)

variable {nodes : List α}

theorem unlisted_length_le (h : l ⊆ m) : (unlisted nodes m).length ≤ (unlisted nodes l).length := by
  simp only [unlisted, ← List.countP_eq_length_filter]
  refine List.countP_mono_left fun x _ hx => ?_
  simp only [decide_eq_true_eq] at hx ⊢
  exact fun hmem => hx (h hmem)

theorem unlisted_length_lt (ha : a ∈ nodes) (hnew : a ∉ l) :
    (unlisted nodes (l ++ [a])).length < (unlisted nodes l).length := by
  have hsplit : unlisted nodes (l ++ [a]) = (unlisted nodes l).filter (· ≠ a) := by
    simp only [unlisted, List.filter_filter]
    refine List.filter_congr fun x _ => ?_
    simp only [List.mem_append, List.mem_singleton, not_or, Bool.decide_and]
    exact Bool.and_comm _ _
  rw [hsplit]
  refine List.length_filter_lt_length_iff_exists.mpr ⟨a, ?_, by simp⟩
  simp [unlisted, ha, hnew]

/-! ### The queue -/

/-- What the queue still has to do: its nodes, and the successors of those unlisted. -/
def workLeft (deps : α → List α) (nodes listed pending : List α) : Nat :=
  pending.length + (nodes.map fun a => if a ∈ listed then 0 else (deps a).length).sum

theorem workLeft_list (pending : List α) (ha : a ∈ nodes) (hnew : a ∉ l) :
    workLeft deps nodes (l ++ [a]) (pending ++ deps a) < workLeft deps nodes l (a :: pending) := by
  obtain ⟨before, after, rfl⟩ := List.append_of_mem ha
  have hle : ∀ part : List α, (part.map fun b => if b ∈ l ++ [a] then 0 else (deps b).length).sum ≤
        (part.map fun b => if b ∈ l then 0 else (deps b).length).sum := by
    intro part
    refine List.sum_le_sum fun b _ => ?_
    by_cases hb : b ∈ l
    · simp [hb]
    · rw [if_neg hb]
      split <;> omega
  have hbefore := hle before
  have hafter := hle after
  simp only [workLeft, List.map_append, List.map_cons, List.sum_append, List.sum_cons,
    List.length_append, List.length_cons, hnew, if_false, List.mem_append, List.mem_singleton,
    or_true, if_true] at *
  omega

/-- The queue holds the successors of the listed nodes, less some listed ones. -/
structure Queued (deps : α → List α) (listed pending : List α) : Prop where
  split : ∃ done, listed.flatMap deps = done ++ pending ∧ done ⊆ listed

variable {pending : List α}

omit [DecidableEq α] in
theorem Queued.skip (h : Queued deps l (a :: pending)) (ha : a ∈ l) : Queued deps l pending := by
  obtain ⟨done, heq, hsub⟩ := h.split
  refine ⟨done ++ [a], by simpa using heq, ?_⟩
  exact List.append_subset.mpr ⟨hsub, by simpa using ha⟩

omit [DecidableEq α] in
theorem Queued.list (h : Queued deps l (a :: pending)) :
    Queued deps (l ++ [a]) (pending ++ deps a) := by
  obtain ⟨done, heq, hsub⟩ := h.split
  refine ⟨done ++ [a], by simp [heq], ?_⟩
  exact List.append_subset.mpr
    ⟨fun b hb => List.mem_append_left _ (hsub hb), List.subset_append_right ..⟩

theorem Queued.next (h : Queued deps l (a :: pending)) (hnew : a ∉ l) :
    breadthNext deps l = some a := by
  obtain ⟨done, heq, hsub⟩ := h.split
  have hnone : done.find? (· ∉ l) = none := by
    rw [List.find?_eq_none]
    intro b hb
    simpa using hsub hb
  rw [breadthNext, firstUnlisted, heq, List.find?_append, hnone]
  simp [hnew]

variable {fuel : Nat}

theorem closure_extends (hclosed : ClosedUnder deps nodes)
    (hq : Queued deps l pending) (hp : pending ⊆ nodes)
    (hfuel : workLeft deps nodes l pending ≤ fuel) :
    Extends (breadthNext deps) l (closure deps fuel l pending) ∧
      breadthNext deps (closure deps fuel l pending) = none := by
  have hdone : ∀ l', Queued deps l' [] → breadthNext deps l' = none := by
    intro l' hq'
    obtain ⟨done, heq, hsub⟩ := hq'.split
    rw [breadthNext, firstUnlisted, heq, List.append_nil, List.find?_eq_none]
    intro b hb
    simpa using hsub hb
  induction fuel generalizing l pending with
  | zero =>
    have hnil : pending = [] := by
      apply List.length_eq_zero_iff.mp
      unfold workLeft at hfuel
      omega
    subst hnil
    exact ⟨Extends.refl _ _, hdone l hq⟩
  | succ fuel ih =>
    cases pending with
    | nil => exact ⟨Extends.refl _ _, hdone l hq⟩
    | cons a pending =>
      have ha : a ∈ nodes := hp List.mem_cons_self
      have hp' : pending ⊆ nodes := fun b hb => hp (List.mem_cons_of_mem a hb)
      by_cases hmem : a ∈ l
      · rw [closure, if_pos hmem]
        apply ih (hq.skip hmem) hp'
        simp only [workLeft, List.length_cons] at hfuel ⊢
        omega
      rw [closure, if_neg hmem]
      have hless : workLeft deps nodes (l ++ [a]) (pending ++ deps a) <
          workLeft deps nodes l (a :: pending) := workLeft_list pending ha hmem
      have hp'' : pending ++ deps a ⊆ nodes := List.append_subset.mpr ⟨hp', hclosed a ha⟩
      obtain ⟨hext, hend⟩ := ih hq.list hp'' (by omega)
      exact ⟨(Extends.step (hq.next hmem)).trans hext, hend⟩

/-- The queue lists breadth first. -/
theorem closure_follows (hclosed : ClosedUnder deps nodes) (hroot : root ∈ nodes)
    (hfuel : workLeft deps nodes [] [root] ≤ fuel) :
    Follows (breadthNext deps) root (closure deps fuel [] [root]) := by
  cases fuel with
  | zero => simp [workLeft] at hfuel
  | succ fuel =>
    have hless : workLeft deps nodes [root] (deps root) < workLeft deps nodes [] [root] :=
      workLeft_list (l := []) [] hroot List.not_mem_nil
    have hq : Queued deps [root] (deps root) := ⟨⟨[], by simp, List.nil_subset _⟩⟩
    rw [closure, if_neg List.not_mem_nil]
    have hfuel' : workLeft deps nodes [root] (deps root) ≤ fuel := by omega
    obtain ⟨hext, hend⟩ := closure_extends hclosed hq (hclosed root hroot) hfuel'
    exact hext.follows hend

/-! ### The recursion -/

theorem visit_listed (ha : a ∈ l) : visit deps fuel l a = l := by
  cases fuel with
  | zero => rfl
  | succ fuel => rw [visit, if_pos ha]

theorem prefix_foldl {f : List α → α → List α} (h : ∀ l a, l <+: f l a) (nexts l : List α) :
    l <+: nexts.foldl f l := by
  induction nexts generalizing l with
  | nil => exact List.prefix_rfl
  | cons b nexts ih => exact (h l b).trans (ih _)

/-- A visit only adds to the listing. -/
theorem prefix_visit (fuel : Nat) (l : List α) (a : α) : l <+: visit deps fuel l a := by
  induction fuel generalizing l a with
  | zero => exact List.prefix_rfl
  | succ fuel ih =>
    by_cases ha : a ∈ l
    · exact (visit_listed ha).symm ▸ List.prefix_rfl
    · rw [visit, if_neg ha]
      exact (List.prefix_append l [a]).trans (prefix_foldl ih _ _)

theorem subset_visit (fuel : Nat) (l : List α) (a : α) : l ⊆ visit deps fuel l a :=
  (prefix_visit fuel l a).subset

/-- What a visit leaves behind: the listing grew by nodes with nothing left to list. -/
structure Visited (deps : α → List α) (listed result : List α) : Prop where
  grown : Extends (depthNext deps) listed result
  finished : ∃ post, result = listed ++ post ∧ ∀ b ∈ post, ∀ c ∈ deps b, c ∈ result

theorem Visited.refl (deps : α → List α) (l : List α) : Visited deps l l :=
  ⟨Extends.refl _ _, [], by simp, by simp⟩

theorem Visited.trans (h : Visited deps l m) (h' : Visited deps m n) : Visited deps l n := by
  obtain ⟨post, rfl, hpost⟩ := h.finished
  obtain ⟨post', rfl, hpost'⟩ := h'.finished
  refine ⟨h.grown.trans h'.grown, post ++ post', by simp, fun b hb c hc => ?_⟩
  rcases List.mem_append.mp hb with hb | hb
  · exact List.mem_append_left _ (hpost b hb c hc)
  · exact hpost' b hb c hc

/-- A visit that starts by listing the node the rule names. -/
theorem Visited.of_step (hnext : depthNext deps l = some a) (h : Visited deps (l ++ [a]) m)
    (hall : ∀ c ∈ deps a, c ∈ m) : Visited deps l m := by
  obtain ⟨post, rfl, hpost⟩ := h.finished
  refine ⟨(Extends.step hnext).trans h.grown, a :: post, by simp, ?_⟩
  intro b hb
  rcases List.mem_cons.mp hb with rfl | hb
  · exact hall
  · exact hpost b hb

/-- The latest node with an unlisted successor is `a`, and `b` is its first one. -/
theorem depthNext_of_open {post before after : List α} {b : α}
    (hpost : ∀ x ∈ post, ∀ c ∈ deps x, c ∈ l ++ [a] ++ post)
    (hdeps : deps a = before ++ b :: after) (hbefore : before ⊆ l ++ [a] ++ post)
    (hb : b ∉ l ++ [a] ++ post) : depthNext deps (l ++ [a] ++ post) = some b := by
  have hnone : (post.reverse.flatMap deps).find? (· ∉ l ++ [a] ++ post) = none := by
    rw [List.find?_eq_none]
    intro c hc
    obtain ⟨x, hx, hcx⟩ := List.mem_flatMap.mp hc
    simpa only [decide_eq_true_eq, not_not] using hpost x (List.mem_reverse.mp hx) c hcx
  have hskip : before.find? (· ∉ l ++ [a] ++ post) = none := by
    rw [List.find?_eq_none]
    intro c hc
    simpa only [decide_eq_true_eq, not_not] using hbefore hc
  have hfound : (b :: after).find? (· ∉ l ++ [a] ++ post) = some b :=
    List.find?_cons_of_pos (by simpa only [decide_eq_true_eq] using hb)
  rw [depthNext, firstUnlisted]
  simp only [List.reverse_append, List.flatMap_append, List.reverse_singleton,
    List.flatMap_singleton, hdeps, List.find?_append, hnone, hskip, hfound, Option.none_or,
    Option.some_or]

/-- Visiting the rest of the successors of `a`, of which the first ones are listed. -/
theorem foldl_visit (hvisit : ∀ l b, b ∈ nodes → b ∉ l → (unlisted nodes l).length ≤ fuel →
      Visited deps (l ++ [b]) (visit deps fuel l b) ∧
        ∀ c ∈ deps b, c ∈ visit deps fuel l b) (before after m : List α)
    (hm : Visited deps (l ++ [a]) m) (hdeps : deps a = before ++ after) (hbefore : before ⊆ m)
    (hafter : after ⊆ nodes) (hfuel : (unlisted nodes m).length ≤ fuel) :
    Visited deps (l ++ [a]) (after.foldl (visit deps fuel) m) ∧
      ∀ c ∈ deps a, c ∈ after.foldl (visit deps fuel) m := by
  induction after generalizing before m with
  | nil =>
    refine ⟨hm, fun c hc => hbefore ?_⟩
    simpa [hdeps] using hc
  | cons b after ih =>
    have hafter' : after ⊆ nodes := fun c hc => hafter (List.mem_cons_of_mem b hc)
    have hdeps' : deps a = (before ++ [b]) ++ after := by simpa using hdeps
    rw [List.foldl_cons]
    by_cases hb : b ∈ m
    · rw [visit_listed hb]
      exact ih _ m hm hdeps' (List.append_subset.mpr ⟨hbefore, by simpa using hb⟩) hafter' hfuel
    obtain ⟨hgrown, hall⟩ := hvisit m b (hafter List.mem_cons_self) hb hfuel
    have hnext : depthNext deps m = some b := by
      obtain ⟨post, rfl, hpost⟩ := hm.finished
      exact depthNext_of_open hpost hdeps hbefore hb
    have hstep : Visited deps m (visit deps fuel m b) := hgrown.of_step hnext hall
    have hsub : m ⊆ visit deps fuel m b := hstep.grown.isPrefix.subset
    have hbin : b ∈ visit deps fuel m b :=
      hgrown.grown.isPrefix.subset (List.mem_append_right _ List.mem_cons_self)
    apply ih _ _ (hm.trans hstep) hdeps' _ hafter' ((unlisted_length_le hsub).trans hfuel)
    exact List.append_subset.mpr ⟨fun c hc => hsub (hbefore hc), by simpa using hbin⟩

theorem visit_fresh (hclosed : ClosedUnder deps nodes) (ha : a ∈ nodes)
    (hnew : a ∉ l) (hfuel : (unlisted nodes l).length ≤ fuel) :
    Visited deps (l ++ [a]) (visit deps fuel l a) ∧ ∀ c ∈ deps a, c ∈ visit deps fuel l a := by
  induction fuel generalizing l a with
  | zero =>
    have hmem : a ∈ unlisted nodes l := by simp [unlisted, ha, hnew]
    have := List.length_pos_of_mem hmem
    omega
  | succ fuel ih =>
    rw [visit, if_neg hnew]
    have hless := unlisted_length_lt ha hnew
    exact foldl_visit (fun l b hb hnew hfuel => ih hb hnew hfuel)
      [] (deps a) (l ++ [a]) (Visited.refl _ _) rfl (List.nil_subset _) (hclosed a ha)
      (by omega)

/-- The recursion lists depth first. -/
theorem visit_follows (hclosed : ClosedUnder deps nodes) (hroot : root ∈ nodes)
    (hfuel : nodes.length ≤ fuel) : Follows (depthNext deps) root (visit deps fuel [] root) := by
  have hle : (unlisted nodes []).length ≤ fuel := by simpa [unlisted] using hfuel
  obtain ⟨hgrown, hall⟩ := visit_fresh hclosed hroot List.not_mem_nil hle
  apply hgrown.grown.follows
  obtain ⟨post, heq, hpost⟩ := hgrown.finished
  rw [depthNext, firstUnlisted_eq_none]
  intro b hb
  rw [heq] at hb
  simp only [List.nil_append, List.reverse_append, List.reverse_singleton, List.mem_append,
    List.mem_reverse, List.mem_singleton] at hb
  rcases hb with hb | rfl
  · exact hpost b hb
  · exact hall

end Searches

end Kinakaze.Library
