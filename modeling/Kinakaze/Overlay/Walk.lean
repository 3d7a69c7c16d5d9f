import Kinakaze.Overlay.Union

/-!
# Walking an overlay

* `walk_nodeOf`: looking up a path leads to the object that the union has there.
-/

namespace Kinakaze.Overlay

open Path

variable {ns : XattrNamespace}

/-! ## The entries of a node -/

/-- The entries come from ever lower layers, and all of them are directories if there is more than
one. -/
structure Merge (ns : XattrNamespace) (first : Source) (rest : List Source) : Prop where
  plain : ∀ s ∈ first :: rest, s.1.Plain ns
  layers : ((first :: rest).map Prod.snd).Pairwise (· < ·)
  directories : first.1.isDirectory = true → ∀ s ∈ rest, s.1.isDirectory = true
  single : first.1.isDirectory = false → rest = []

theorem dirsBelow_sound (stored : Text) (sources : List Source)
    (hplain : ∀ s ∈ sources, s.1.Plain ns) :
    (∀ s ∈ dirsBelow ns stored sources, s.1.Plain ns ∧ s.1.isDirectory = true) ∧
      ((dirsBelow ns stored sources).map Prod.snd).Sublist (sources.map Prod.snd) := by
  induction sources with
  | nil => exact ⟨List.forall_mem_nil _, .refl _⟩
  | cons source lower ih =>
    obtain ⟨hsource, hlower⟩ := List.forall_mem_cons.mp hplain
    obtain ⟨ihplain, ihlayers⟩ := ih hlower
    rw [dirsBelow, List.map_cons]
    cases hlookup : source.1.entries.lookup stored with
    | none => exact ⟨ihplain, ihlayers.cons _⟩
    | some entry =>
      have hentry := hsource.entries.lookup hlookup
      dsimp only
      split
      · exact ⟨List.forall_mem_nil _, List.nil_sublist _⟩
      · next hbarrier =>
        have hdirectory : entry.isDirectory = true := by
          by_contra hnot
          simp [hnot] at hbarrier
        split
        · refine ⟨fun s hs => ?_, (List.nil_sublist _).cons_cons _⟩
          rw [List.mem_singleton.mp hs]
          exact ⟨hentry, hdirectory⟩
        · refine ⟨fun s hs => ?_, ihlayers.cons_cons _⟩
          rcases List.mem_cons.mp hs with rfl | hs
          · exact ⟨hentry, hdirectory⟩
          · exact ihplain s hs

theorem merged_sound {stored : Text} {sources : List Source}
    (hplain : ∀ s ∈ sources, s.1.Plain ns) (hlayers : (sources.map Prod.snd).Pairwise (· < ·))
    {first : Source} {rest : List Source} (h : merged ns stored sources = first :: rest) :
    Merge ns first rest := by
  induction sources with
  | nil => cases h
  | cons source lower ih =>
    obtain ⟨hsource, hlower⟩ := List.forall_mem_cons.mp hplain
    rw [List.map_cons, List.pairwise_cons] at hlayers
    rw [merged] at h
    cases hlookup : source.1.entries.lookup stored with
    | none =>
      rw [hlookup] at h
      exact ih hlower hlayers.2 h
    | some entry =>
      have hentry := hsource.entries.lookup hlookup
      have hsingle : ∀ s ∈ [(entry, source.2)], s.1.Plain ns := by
        intro s hs
        rw [List.mem_singleton.mp hs]
        exact hentry
      rw [hlookup] at h
      dsimp only at h
      split at h
      · cases h
      split at h
      · cases h
        exact ⟨hsingle, List.pairwise_singleton _ _, fun _ => List.forall_mem_nil _, fun _ => rfl⟩
      · next hstop =>
        have hdirectory : entry.isDirectory = true := by
          by_contra hnot
          simp [hnot] at hstop
        obtain ⟨hbelow, hsublist⟩ := dirsBelow_sound stored lower hlower
        cases h
        refine ⟨fun s hs => ?_, ?_, fun _ s hs => (hbelow s hs).2, fun hnot => ?_⟩
        · rcases List.mem_cons.mp hs with rfl | hs
          · exact hentry
          · exact (hbelow s hs).1
        · rw [List.map_cons]
          refine List.pairwise_cons.mpr ⟨fun layer hlayer => ?_, hlayers.2.sublist hsublist⟩
          exact hlayers.1 layer (hsublist.subset hlayer)
        · rw [hdirectory] at hnot
          cases hnot

/-! ## Paths -/

def Node.walk (n : Node) (path : List Text) : Except Int Node := path.foldlM Node.child n

/-- The object that a node stands for. -/
def Node.object (n : Node) : Nat × Tree := (n.first.layer, n.first.object)

def ValidPath (path : List Text) : Prop := ∀ name ∈ path, validateComponent name = .ok ()

/-- A node that is reached shows the object that the union has, and is merged as it should. -/
theorem walk_nodeOf {context : Option LookupContext}
    (hcontext : ∀ c, context = some c → c.Featureless) (path : List Text) (hpath : ValidPath path)
    {first : Source} {rest : List Source} (hmerge : Merge ns first rest) :
    ((nodeOf ns context first rest).walk path).map Node.object = (unionOf ns first rest).find path ∧
      ∀ n, (nodeOf ns context first rest).walk path = .ok n →
        ∃ first rest, n = nodeOf ns context first rest ∧ Merge ns first rest := by
  induction path generalizing first rest with
  | nil =>
    refine ⟨rfl, fun n hn => ?_⟩
    cases hn
    exact ⟨first, rest, rfl, hmerge⟩
  | cons name path ih =>
    have hchild := child_nodeOf hcontext hmerge.plain (hpath name List.mem_cons_self)
    have hwalk : (nodeOf ns context first rest).walk (name :: path) =
        (nodeOf ns context first rest).child name >>= fun n => n.walk path := rfl
    have hfind : (unionOf ns first rest).find (name :: path) =
        if !first.1.isDirectory then .error ENOTDIR
        else (if first.1.isDirectory then
          layered ns (first :: rest) (escapeComponent name) else .absent).find path := rfl
    rw [hwalk, hfind, hchild]
    cases hdirectory : first.1.isDirectory with
    | false =>
      refine ⟨rfl, fun n hn => ?_⟩
      cases hn
    | true =>
      rw [if_pos rfl, if_neg (by decide), if_pos rfl, layered_merged]
      cases hmerged : merged ns (escapeComponent name) (first :: rest) with
      | nil =>
        refine ⟨?_, fun n hn => ?_⟩
        · cases path <;> rfl
        · cases hn
      | cons first' rest' =>
        exact ih (fun name hname => hpath name (List.mem_cons_of_mem _ hname))
          (merged_sound hmerge.plain hmerge.layers hmerged)

/-! ## Stacks -/

/-- The layers of an overlay, highest first. -/
structure Stack (ns : XattrNamespace) where
  top : Tree
  lower : List Tree
  directories : ∀ object ∈ top :: lower, object.isDirectory = true
  plain : ∀ object ∈ top :: lower, object.Plain ns

def Stack.sources (stack : Stack ns) : List Source := stack.lower.zipIdx 1

/-- The roots of all layers are merged. -/
def Stack.union (stack : Stack ns) : Union := unionOf ns (stack.top, 0) stack.sources

theorem mapM_ok {α β : Type} {f : α → Except Int β} {g : α → β} {xs : List α}
    (h : ∀ x ∈ xs, f x = .ok (g x)) : xs.mapM f = .ok (xs.map g) := by
  induction xs with
  | nil => rfl
  | cons x rest ih =>
    rw [List.mapM_cons, h x List.mem_cons_self, ih fun y hy => h y (List.mem_cons_of_mem x hy)]
    rfl

theorem Stack.sources_mem (stack : Stack ns) {s : Source}
    (h : s ∈ (stack.top, 0) :: stack.sources) : s.1 ∈ stack.top :: stack.lower := by
  rcases List.mem_cons.mp h with rfl | h
  · exact List.mem_cons_self
  · exact List.mem_cons_of_mem _ (List.fst_mem_of_mem_zipIdx h)

theorem Stack.root (stack : Stack ns) :
    Node.root ns (stack.top :: stack.lower) = .ok (nodeOf ns none (stack.top, 0) stack.sources) := by
  unfold Node.root
  rw [List.zipIdx_cons, mapM_ok (g := backing ns)]
  · rfl
  intro s hs
  have hmem := stack.sources_mem hs
  obtain ⟨object, layer⟩ := s
  dsimp only
  rw [fromObject_plain (stack.plain object hmem)]
  have hdirectory : (backing ns (object, layer)).isDirectory = true :=
    stack.directories object hmem
  change (if (backing ns (object, layer)).isDirectory then _ else _) = _
  rw [if_pos hdirectory]
  rfl

theorem Stack.merge (stack : Stack ns) : Merge ns (stack.top, 0) stack.sources := by
  refine ⟨fun s hs => stack.plain s.1 (stack.sources_mem hs), ?_,
    fun _ s hs => stack.directories s.1 (stack.sources_mem (List.mem_cons_of_mem _ hs)),
    fun hnot => ?_⟩
  · have hlayers : ((stack.top, 0) :: stack.sources).map Prod.snd =
        List.range' 0 (stack.lower.length + 1) := by
      rw [List.map_cons, Stack.sources, List.zipIdx_map_snd]
      rfl
    rw [hlayers]
    exact List.pairwise_lt_range'
  · have htop := stack.directories stack.top List.mem_cons_self
    rw [htop] at hnot
    cases hnot

end Kinakaze.Overlay
