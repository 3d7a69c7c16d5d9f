import Mathlib.Algebra.Order.BigOperators.Group.Finset

/-!
# A forward analysis with a queue of nodes

A program is a graph on the nodes `0, …, count - 1`.  The analysis keeps one
fact for each node it has met and a queue of nodes whose fact changed since
they were last looked at.  Looking at a node either refuses the program or
says which fact holds after it and which nodes come next.
-/

namespace Kinakaze.Library

/-- What the analysis knows: the fact recorded at each node and the nodes to
look at, in order. -/
structure Analysis (L : Type) where
  incoming : Nat → Option L
  work : List Nat

section Definitions

variable {L ε : Type} [DecidableEq L] (merge : L → L → L) (unset : L)
  (transfer : Nat → L → Except ε (L × List Nat))

/-- Record a fact at a successor; the successor is queued if that says
something new. -/
def Analysis.record (fact : L) (a : Analysis L) (successor : Nat) : Analysis L :=
  match a.incoming successor with
  | none => ⟨Function.update a.incoming successor (some fact), a.work ++ [successor]⟩
  | some previous =>
    if merge previous fact ≠ previous then
      ⟨Function.update a.incoming successor (some (merge previous fact)), a.work ++ [successor]⟩
    else a

/-- Look at the nodes of the queue until it is empty, `fuel` of them at most. -/
def analyse : Nat → Analysis L → Option (Except ε (Nat → Option L))
  | _, ⟨incoming, []⟩ => some (.ok incoming)
  | 0, ⟨_, _ :: _⟩ => none
  | fuel + 1, ⟨incoming, node :: work⟩ =>
    match transfer node ((incoming node).getD unset) with
    | .error e => some (.error e)
    | .ok (fact, successors) =>
      analyse fuel (successors.foldl (Analysis.record merge fact) ⟨incoming, work⟩)

end Definitions

section Settled

variable {L ε : Type} [DecidableEq L] {merge : L → L → L} {unset : L}
  {transfer : Nat → L → Except ε (L × List Nat)} (below : L → L → Prop)

/-- At `node` something below `fact` is recorded. -/
def Recorded (incoming : Nat → Option L) (fact : L) (node : Nat) : Prop :=
  ∃ m, incoming node = some m ∧ below m fact

/-- What `node` sends on under the fact `m` has been recorded. -/
def Settled (transfer : Nat → L → Except ε (L × List Nat)) (incoming : Nat → Option L)
    (node : Nat) (m : L) : Prop :=
  ∃ fact successors, transfer node m = .ok (fact, successors) ∧
    ∀ next ∈ successors, Recorded below incoming fact next

/-- Facts only move down. -/
def Descends (incoming incoming' : Nat → Option L) : Prop :=
  ∀ node m, incoming node = some m → Recorded below incoming' m node

variable {below} (hrefl : ∀ m, below m m) (htrans : ∀ a b c, below a b → below b c → below a c)
  (hleft : ∀ a b, below (merge a b) a) (hright : ∀ a b, below (merge a b) b)

variable {incoming : Nat → Option L} {node : Nat} {fact : L} {incoming' : Nat → Option L}

include htrans in
omit [DecidableEq L] in
theorem Recorded.descends
    (h : Recorded below incoming fact node) (hd : Descends below incoming incoming') :
    Recorded below incoming' fact node := by
  obtain ⟨m, hm, hbelow⟩ := h
  obtain ⟨m', hm', hbelow'⟩ := hd node m hm
  exact ⟨m', hm', htrans _ _ _ hbelow' hbelow⟩

include htrans in
theorem Settled.descends {m : L}
    (h : Settled below transfer incoming node m) (hd : Descends below incoming incoming') :
    Settled below transfer incoming' node m := by
  obtain ⟨fact, successors, hok, hnext⟩ := h
  exact ⟨fact, successors, hok, fun next hmem => (hnext next hmem).descends htrans hd⟩

/-- What recording does: the successor has the fact, nothing moves up, and a
node whose fact is new is in the queue. -/
structure Records (below : L → L → Prop) (fact : L) (successors : List Nat)
    (a a' : Analysis L) : Prop where
  recorded : ∀ next ∈ successors, Recorded below a'.incoming fact next
  descends : Descends below a.incoming a'.incoming
  queued : ∀ node, a'.incoming node = a.incoming node ∨ node ∈ a'.work
  kept : ∀ node ∈ a.work, node ∈ a'.work

include hrefl hleft hright in
theorem Analysis.record_spec (fact : L) (a : Analysis L) (successor : Nat) :
    Records below fact [successor] a (a.record merge fact successor) := by
  unfold Analysis.record
  split
  · next hnone =>
    refine ⟨?_, fun node m hm => ?_, fun node => ?_, fun node hmem => by simp [hmem]⟩
    · simpa using ⟨fact, by simp, hrefl fact⟩
    · have hne : node ≠ successor := by
        rintro rfl
        simp [hnone] at hm
      exact ⟨m, by simp [Function.update_of_ne hne, hm], hrefl m⟩
    · by_cases hne : node = successor
      · simp [hne]
      · simp [Function.update_of_ne hne]
  · next previous hprevious =>
    split
    · refine ⟨?_, fun node m hm => ?_, fun node => ?_, fun node hmem => by simp [hmem]⟩
      · simpa using ⟨merge previous fact, by simp, hright previous fact⟩
      · by_cases hne : node = successor
        · subst hne
          rw [hprevious] at hm
          cases hm
          exact ⟨merge previous fact, by simp, hleft previous fact⟩
        · exact ⟨m, by simp [Function.update_of_ne hne, hm], hrefl m⟩
      · by_cases hne : node = successor
        · simp [hne]
        · simp [Function.update_of_ne hne]
    · next hsame =>
      have hmerge : merge previous fact = previous := not_not.mp hsame
      refine ⟨?_, fun node m hm => ⟨m, hm, hrefl m⟩, fun node => .inl rfl, fun node hmem => hmem⟩
      simpa using ⟨previous, hprevious, hmerge ▸ hright previous fact⟩

include hrefl htrans hleft hright in
theorem Analysis.foldl_record_spec (fact : L) (successors : List Nat) (a : Analysis L) :
    Records below fact successors a (successors.foldl (Analysis.record merge fact) a) := by
  induction successors generalizing a with
  | nil => exact ⟨by simp, fun node m hm => ⟨m, hm, hrefl m⟩, fun _ => .inl rfl, fun _ h => h⟩
  | cons next rest ih =>
    have hone := Analysis.record_spec hrefl hleft hright fact a next
    have hrest := ih (a.record merge fact next)
    rw [List.foldl_cons]
    refine ⟨fun node hmem => ?_, fun node m hm => ?_, fun node => ?_,
      fun node hmem => hrest.kept _ (hone.kept _ hmem)⟩
    · rcases List.mem_cons.mp hmem with rfl | hmem
      · exact (hone.recorded node (by simp)).descends htrans hrest.descends
      · exact hrest.recorded node hmem
    · exact (hone.descends node m hm).descends htrans hrest.descends
    · rcases hrest.queued node with heq | hmem
      · rcases hone.queued node with heq' | hmem
        · exact .inl (heq.trans heq')
        · exact .inr (hrest.kept _ hmem)
      · exact .inr hmem

/-- The invariant of the analysis: a node with a fact is settled or queued. -/
def Progress (below : L → L → Prop) (transfer : Nat → L → Except ε (L × List Nat))
    (a : Analysis L) : Prop :=
  ∀ node m, a.incoming node = some m → Settled below transfer a.incoming node m ∨ node ∈ a.work

include hrefl htrans hleft hright in
/-- Looking at one node keeps the invariant. -/
theorem Progress.look {work : List Nat}
    {successors : List Nat} (h : Progress below transfer ⟨incoming, node :: work⟩)
    (hok : transfer node ((incoming node).getD unset) = .ok (fact, successors)) :
    Progress below transfer (successors.foldl (Analysis.record merge fact) ⟨incoming, work⟩) := by
  have hrecords := Analysis.foldl_record_spec hrefl htrans hleft hright fact successors
    ⟨incoming, work⟩
  intro next m hm
  rcases hrecords.queued next with heq | hmem
  · rw [heq] at hm
    rcases h next m hm with hsettled | hmem
    · exact .inl (hsettled.descends htrans hrecords.descends)
    rcases List.mem_cons.mp hmem with rfl | hmem
    · refine .inl ⟨fact, successors, ?_, hrecords.recorded⟩
      have hget : incoming next = some m := hm
      rw [hget] at hok
      exact hok
    · exact .inr (hrecords.kept _ hmem)
  · exact .inr hmem

include hrefl htrans hleft hright in
/-- When the analysis accepts, every fact is settled and lies below the one it
started from. -/
theorem analyse_settled {fuel : Nat} {a : Analysis L} (h : Progress below transfer a)
    (hok : analyse merge unset transfer fuel a = some (.ok incoming)) :
    Descends below a.incoming incoming ∧
      ∀ node m, incoming node = some m → Settled below transfer incoming node m := by
  induction fuel generalizing a with
  | zero =>
    obtain ⟨incoming₀, work⟩ := a
    cases work with
    | nil =>
      simp only [analyse, Option.some.injEq, Except.ok.injEq] at hok
      subst hok
      refine ⟨fun node m hm => ⟨m, hm, hrefl m⟩, fun node m hm => ?_⟩
      simpa using h node m hm
    | cons node work => simp [analyse] at hok
  | succ fuel ih =>
    obtain ⟨incoming₀, work⟩ := a
    cases work with
    | nil =>
      simp only [analyse, Option.some.injEq, Except.ok.injEq] at hok
      subst hok
      refine ⟨fun node m hm => ⟨m, hm, hrefl m⟩, fun node m hm => ?_⟩
      simpa using h node m hm
    | cons node work =>
      simp only [analyse] at hok
      split at hok
      · simp at hok
      · next fact successors htransfer =>
        have hlook := h.look hrefl htrans hleft hright htransfer
        obtain ⟨hdescends, hsettled⟩ := ih hlook hok
        have hrecords := Analysis.foldl_record_spec hrefl htrans hleft hright fact
          successors ⟨incoming₀, work⟩
        refine ⟨fun next m hm => ?_, hsettled⟩
        exact (hrecords.descends next m hm).descends htrans hdescends

end Settled

section Termination

variable {L ε : Type} [DecidableEq L] {merge : L → L → L} {unset : L}
  {transfer : Nat → L → Except ε (L × List Nat)} (height : L → Nat) (limit count : Nat)

/-- How often the fact at one node can still change. -/
def room (fact : Option L) : Nat :=
  match fact with
  | none => limit + 1
  | some m => height m

/-- How many more nodes the analysis can look at. -/
def Analysis.potential (a : Analysis L) : Nat :=
  a.work.length + ∑ node ∈ Finset.range count, room height limit (a.incoming node)

variable {height limit count} (hlimit : ∀ m, height m ≤ limit)
  (hmerge : ∀ a b, merge a b ≠ a → height (merge a b) < height a)

omit [DecidableEq L] in
theorem room_le (hlimit : ∀ m, height m ≤ limit) (fact : Option L) :
    room height limit fact ≤ limit + 1 := by
  cases fact with
  | none => exact le_rfl
  | some m => exact (hlimit m).trans (Nat.le_succ limit)

/-- An analysis has at most `limit + 1` changes left at each node. -/
theorem Analysis.potential_le (hlimit : ∀ m, height m ≤ limit) (a : Analysis L) :
    a.potential height limit count ≤ a.work.length + count * (limit + 1) := by
  have hsum : ∑ node ∈ Finset.range count, room height limit (a.incoming node) ≤
      count * (limit + 1) := by
    simpa using Finset.sum_le_card_nsmul (Finset.range count)
      (fun node => room height limit (a.incoming node)) (limit + 1)
      (fun node _ => room_le hlimit (a.incoming node))
  simp only [potential]
  omega

omit [DecidableEq L] in
theorem sum_update_lt {incoming : Nat → Option L} {node : Nat} {fact : L}
    (hnode : node < count) (hlt : height fact < room height limit (incoming node)) :
    ∑ n ∈ Finset.range count, room height limit (Function.update incoming node (some fact) n) <
      ∑ n ∈ Finset.range count, room height limit (incoming n) := by
  refine Finset.sum_lt_sum (fun n _ => ?_) ⟨node, by simpa using hnode, by simpa [room] using hlt⟩
  by_cases hne : n = node
  · subst hne
    simpa [room] using hlt.le
  · simp [Function.update_of_ne hne]

include hlimit hmerge in
/-- A node is queued only when its fact loses height. -/
theorem Analysis.potential_record (fact : L) (a : Analysis L) {successor : Nat}
    (hsuccessor : successor < count) :
    (a.record merge fact successor).potential height limit count ≤
      a.potential height limit count := by
  unfold Analysis.record
  split
  · next hnone =>
    have hlt : height fact < room height limit (a.incoming successor) := by
      rw [hnone]
      exact Nat.lt_succ_of_le (hlimit fact)
    have hsum := sum_update_lt hsuccessor hlt
    simp only [potential, List.length_append, List.length_singleton]
    omega
  · next previous hprevious =>
    split
    · next hchanged =>
      have hlt : height (merge previous fact) < room height limit (a.incoming successor) := by
        rw [hprevious]
        exact hmerge previous fact hchanged
      have hsum := sum_update_lt hsuccessor hlt
      simp only [potential, List.length_append, List.length_singleton]
      omega
    · exact le_rfl

include hlimit hmerge in
theorem Analysis.potential_foldl_record (fact : L) {successors : List Nat}
    (hsuccessors : ∀ next ∈ successors, next < count) (a : Analysis L) :
    (successors.foldl (Analysis.record merge fact) a).potential height limit count ≤
      a.potential height limit count := by
  induction successors generalizing a with
  | nil => exact le_rfl
  | cons next rest ih =>
    have hrest := ih (fun n hmem => hsuccessors n (by simp [hmem])) (a.record merge fact next)
    exact hrest.trans (potential_record hlimit hmerge fact a (hsuccessors next (by simp)))

variable (height limit count) in
include hlimit hmerge in
/-- The queue runs empty within as many looks as the potential says. -/
theorem analyse_terminates
    (hnext : ∀ node m fact successors, transfer node m = .ok (fact, successors) →
      ∀ next ∈ successors, next < count) {fuel : Nat} {a : Analysis L}
    (hfuel : a.potential height limit count ≤ fuel) :
    ∃ result, analyse merge unset transfer fuel a = some result := by
  induction fuel generalizing a with
  | zero =>
    obtain ⟨incoming, work⟩ := a
    cases work with
    | nil => exact ⟨_, rfl⟩
    | cons node work => simp [Analysis.potential] at hfuel
  | succ fuel ih =>
    obtain ⟨incoming, work⟩ := a
    cases work with
    | nil => exact ⟨_, rfl⟩
    | cons node work =>
      simp only [analyse]
      split
      · exact ⟨_, rfl⟩
      · next fact successors htransfer =>
        refine ih (le_trans (Analysis.potential_foldl_record hlimit hmerge fact
          (hnext node _ fact successors htransfer) _) ?_)
        simp only [Analysis.potential, List.length_cons] at hfuel ⊢
        omega

end Termination

end Kinakaze.Library
