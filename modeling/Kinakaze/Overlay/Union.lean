import Kinakaze.Overlay.Layers

/-!
# The union of the layers

The union is defined on whole trees, one layer over what is below it: an entry hides what is below,
unless both are directories, which are then joined, and a whiteout shows nothing.
-/

namespace Kinakaze.Overlay

open Path

variable (ns : XattrNamespace)

/-! ## The union of trees -/

inductive Union
  | absent
  | node (layer : Nat) (object : Tree) (children : Text → Union)

/-- What a directory of the union has under a stored name. -/
def Union.sub : Union → Text → Union
  | .absent, _ => .absent
  | .node _ object children, stored => if object.isDirectory then children stored else .absent

@[simp] theorem sub_absent (stored : Text) : Union.absent.sub stored = .absent := rfl

@[simp] theorem sub_node (layer : Nat) (object : Tree) (children : Text → Union) (stored : Text) :
    (Union.node layer object children).sub stored =
      if object.isDirectory then children stored else .absent := rfl

mutual

/-- An object of a layer over what the lower layers show in its place. -/
def Tree.over (layer : Nat) : Tree → Union → Union
  | .node stat attributes entries, lower =>
    let object := Tree.node stat attributes entries
    if object.isWhiteout ns then .absent
    else
      .node layer object fun stored =>
        if !object.isDirectory then .absent
        else
          entries.over layer stored (if object.isOpaque ns then .absent else lower.sub stored)

def Forest.over (layer : Nat) : Forest → Text → Union → Union
  | .nil, _, lower => lower
  | .cons name object rest, stored, lower =>
    if name = stored then object.over layer lower else rest.over layer stored lower

end

/-- An object, and the layer that it is in. -/
abbrev Source := Tree × Nat

/-- Directories over each other. -/
def layered : List Source → Text → Union
  | [], _ => .absent
  | (object, layer) :: lower, stored =>
    object.entries.over ns layer stored (layered lower stored)

/-- What an object shows with the directories that are merged below it. -/
def unionOf (first : Source) (rest : List Source) : Union :=
  .node first.2 first.1 fun stored =>
    if first.1.isDirectory then layered ns (first :: rest) stored else .absent

def Union.find : Union → List Text → Except Int (Nat × Tree)
  | .absent, _ => .error ENOENT
  | .node layer object _, [] => .ok (layer, object)
  | .node _ object children, name :: path =>
    if !object.isDirectory then .error ENOTDIR
    else (children (escapeComponent name)).find path

/-! ## Layers without features -/

mutual

def Tree.Plain : Tree → Prop
  | .node _ attributes entries =>
    attributes.lookup (ns, .redirect) = none ∧
      attributes.lookup (ns, .metacopy) = none ∧ entries.Plain

def Forest.Plain : Forest → Prop
  | .nil => True
  | .cons _ object rest => object.Plain ∧ rest.Plain

end

variable {ns} {object : Tree}

theorem Tree.Plain.entries (h : object.Plain ns) : object.entries.Plain ns := by
  obtain ⟨stat, attributes, entries⟩ := object
  exact h.2.2

variable {stored name : Text}

theorem Forest.Plain.lookup {forest : Forest} (h : forest.Plain ns)
    (hlookup : forest.lookup stored = some object) : object.Plain ns := by
  match forest, h with
  | .nil, _ => cases hlookup
  | .cons name head rest, h =>
    rw [Forest.lookup] at hlookup
    split at hlookup
    · cases hlookup
      exact h.1
    · exact Forest.Plain.lookup h.2 hlookup

variable (ns)

/-- The entry for an object without features. -/
def backing (s : Source) : Backing where
  layer := s.2
  object := s.1
  whiteout := s.1.isWhiteout ns
  isOpaque := s.1.isOpaque ns
  requiresRedirectOrMetacopy := false
  redirect := none
  metacopy := none

variable {ns}

@[simp] theorem backing_whiteout (s : Source) : (backing ns s).whiteout = s.1.isWhiteout ns := rfl

@[simp] theorem backing_isOpaque (s : Source) : (backing ns s).isOpaque = s.1.isOpaque ns := rfl

@[simp] theorem backing_isDirectory (s : Source) :
    (backing ns s).isDirectory = s.1.isDirectory := rfl

@[simp] theorem backing_requires (s : Source) :
    (backing ns s).requiresRedirectOrMetacopy = false := rfl

@[simp] theorem backing_metacopy (s : Source) : (backing ns s).metacopy = none := rfl

@[simp] theorem backing_redirect (s : Source) : (backing ns s).redirect = none := rfl

theorem fromObject_plain {layer : Nat} (h : object.Plain ns) :
    Backing.fromObject ns layer object = .ok (backing ns (object, layer)) := by
  obtain ⟨stat, attributes, entries⟩ := object
  have hredirect : (Tree.node stat attributes entries).attr ns .redirect = none := h.1
  have hmetacopy : (Tree.node stat attributes entries).attr ns .metacopy = none := h.2.1
  rw [Backing.fromObject, hredirect, hmetacopy]
  rfl

theorem child_hostName (h : HostName stored) :
    object.child stored = match object.entries.lookup stored with
      | none => .error ENOENT
      | some entry => .ok entry := by
  have hdot : stored ≠ ['.'] ∧ stored ≠ ['.', '.'] := by
    constructor <;> rintro rfl <;> exact absurd h.ending (by decide)
  have hchars : (stored.any fun c => c == '/' || c == '\\' || c == ':') = false := by
    rw [List.any_eq_false]
    intro c hc
    obtain ⟨hreserved, hslash⟩ := h.plain c hc
    have hback : c ≠ '\\' := by
      rintro rfl
      exact absurd hreserved (by decide)
    have hcolon : c ≠ ':' := by
      rintro rfl
      exact absurd hreserved (by decide)
    simp [hslash, hback, hcolon]
  have hok : ¬ (stored.isEmpty || stored == ['.'] || stored == ['.', '.'] ||
      stored.any fun c => c == '/' || c == '\\' || c == ':') = true := by
    rw [hchars]
    simp [h.nonempty, hdot.1, hdot.2]
  exact if_neg hok

theorem entry_plain {s : Source} (h : s.1.Plain ns) (hname : HostName stored) :
    (backing ns s).entry ns stored = match s.1.entries.lookup stored with
      | none => .error ENOENT
      | some entry => .ok (backing ns (entry, s.2)) := by
  unfold Backing.entry
  rw [show (backing ns s).object = s.1 from rfl, child_hostName hname]
  cases hlookup : s.1.entries.lookup stored with
  | none => rfl
  | some entry => exact fromObject_plain (h.entries.lookup hlookup)

/-! ## What a lookup finds -/

variable (ns)

/-- The directories that are merged below one that was found. -/
def dirsBelow (stored : Text) : List Source → List Source
  | [] => []
  | (object, layer) :: lower =>
    match object.entries.lookup stored with
    | none => dirsBelow stored lower
    | some entry =>
      if entry.isWhiteout ns || !entry.isDirectory then []
      else if entry.isOpaque ns then [(entry, layer)]
      else (entry, layer) :: dirsBelow stored lower

def merged (stored : Text) : List Source → List Source
  | [] => []
  | (object, layer) :: lower =>
    match object.entries.lookup stored with
    | none => merged stored lower
    | some entry =>
      if entry.isWhiteout ns then []
      else if !entry.isDirectory || entry.isOpaque ns then [(entry, layer)]
      else (entry, layer) :: dirsBelow ns stored lower

variable {ns}

theorem forest_over (layer : Nat) (forest : Forest) (stored : Text) (lower : Union) :
    forest.over ns layer stored lower = match forest.lookup stored with
      | none => lower
      | some object => object.over ns layer lower := by
  match forest with
  | .nil => rfl
  | .cons name object rest =>
    rw [Forest.over, Forest.lookup]
    split
    · rfl
    · exact forest_over layer rest stored lower

theorem tree_over (layer : Nat) (object : Tree) (lower : Union) :
    object.over ns layer lower = if object.isWhiteout ns then .absent
      else
        .node layer object fun stored =>
          if !object.isDirectory then .absent
          else
            object.entries.over ns layer stored
              (if object.isOpaque ns then .absent else lower.sub stored) := by
  obtain ⟨stat, attributes, entries⟩ := object
  rfl

theorem layered_cons (object : Tree) (layer : Nat) (lower : List Source) (stored : Text) :
    layered ns ((object, layer) :: lower) stored = match object.entries.lookup stored with
      | none => layered ns lower stored
      | some entry => entry.over ns layer (layered ns lower stored) :=
  forest_over layer _ stored _

theorem sub_layered (sources : List Source) (stored name : Text) :
    (layered ns sources stored).sub name = layered ns (dirsBelow ns stored sources) name := by
  induction sources with
  | nil => rfl
  | cons source lower ih =>
    obtain ⟨object, layer⟩ := source
    rw [layered_cons, dirsBelow]
    cases hlookup : object.entries.lookup stored with
    | none => exact ih
    | some entry =>
      dsimp only
      rw [tree_over]
      cases hwhiteout : entry.isWhiteout ns with
      | true => rfl
      | false =>
        cases hdirectory : entry.isDirectory with
        | false => simp [hdirectory, layered]
        | true =>
          cases hopaque : entry.isOpaque ns with
          | true => simp [hdirectory, hopaque, layered]
          | false => simp [hdirectory, hopaque, layered, ih]

theorem layered_merged (sources : List Source) (stored : Text) :
    layered ns sources stored = match merged ns stored sources with
      | [] => .absent
      | first :: rest => unionOf ns first rest := by
  induction sources with
  | nil => rfl
  | cons source lower ih =>
    obtain ⟨object, layer⟩ := source
    rw [layered_cons, merged]
    cases hlookup : object.entries.lookup stored with
    | none => exact ih
    | some entry =>
      dsimp only
      rw [tree_over]
      cases hwhiteout : entry.isWhiteout ns with
      | true => rfl
      | false =>
        cases hdirectory : entry.isDirectory with
        | false => simp [unionOf, hdirectory]
        | true =>
          cases hopaque : entry.isOpaque ns with
          | true => simp [unionOf, hdirectory, hopaque, layered]
          | false => simp [unionOf, hdirectory, hopaque, layered, sub_layered]

theorem childLoop_below (hname : HostName stored) (sources : List Source)
    (hplain : ∀ s ∈ sources, s.1.Plain ns) (found : List Backing) (hfound : found ≠ []) :
    childLoop ns stored (sources.map (backing ns)) found =
      .ok (found ++ (dirsBelow ns stored sources).map (backing ns)) := by
  induction sources generalizing found with
  | nil => simp [childLoop, dirsBelow]
  | cons source lower ih =>
    obtain ⟨hsource, hlower⟩ := List.forall_mem_cons.mp hplain
    rw [List.map_cons, childLoop, entry_plain hsource hname, dirsBelow]
    cases hlookup : source.1.entries.lookup stored with
    | none => exact ih hlower found hfound
    | some entry =>
      have hempty : found.isEmpty = false := List.isEmpty_eq_false_iff.mpr hfound
      have hnext : found ++ [backing ns (entry, source.2)] ≠ [] := by simp
      have hrest := ih hlower _ hnext
      cases hwhiteout : entry.isWhiteout ns with
      | true => simp [hwhiteout]
      | false =>
        cases hdirectory : entry.isDirectory with
        | false => simp [hwhiteout, hdirectory, hempty]
        | true =>
          cases hopaque : entry.isOpaque ns with
          | true => simp [hwhiteout, hdirectory, hopaque]
          | false => simp [hwhiteout, hdirectory, hopaque, hrest]

theorem childLoop_merged (hname : HostName stored) (sources : List Source)
    (hplain : ∀ s ∈ sources, s.1.Plain ns) :
    childLoop ns stored (sources.map (backing ns)) [] =
      .ok ((merged ns stored sources).map (backing ns)) := by
  induction sources with
  | nil => rfl
  | cons source lower ih =>
    obtain ⟨hsource, hlower⟩ := List.forall_mem_cons.mp hplain
    rw [List.map_cons, childLoop, entry_plain hsource hname, merged]
    cases hlookup : source.1.entries.lookup stored with
    | none => exact ih hlower
    | some entry =>
      have hbelow := childLoop_below hname lower hlower [backing ns (entry, source.2)]
        (List.cons_ne_nil _ _)
      cases hwhiteout : entry.isWhiteout ns with
      | true => simp [hwhiteout]
      | false =>
        cases hdirectory : entry.isDirectory with
        | false => simp [hwhiteout, hdirectory]
        | true =>
          cases hopaque : entry.isOpaque ns with
          | true => simp [hwhiteout, hdirectory, hopaque]
          | false => simp [hwhiteout, hdirectory, hopaque, hbelow]

/-! ## The same with features -/

/-- The features that attributes turn on are left, and no index has an entry. -/
structure LookupContext.Featureless (context : LookupContext) : Prop where
  exported : ∀ found, context.exported found = .ok found
  indexed : ∀ found, context.indexed found = .ok none

theorem featureEntry_plain (context : LookupContext) (depth : Nat) (all : List Backing)
    (parent : Backing) (found : List Backing) (needData : Bool) (s : Source) :
    featureEntry context depth all parent found needData (backing ns s) =
      if found.head?.any fun first => s.1.isDirectory != first.isDirectory then
        .ok (true, found, needData)
      else .ok (!s.1.isDirectory || s.1.isOpaque ns, found ++ [backing ns s], false) := by
  unfold featureEntry
  simp

theorem featureLoop_below (hname : HostName stored) (context : LookupContext) (depth : Nat)
    (all : List Backing) (sources : List Source) (hplain : ∀ s ∈ sources, s.1.Plain ns)
    (first : Backing) (found : List Backing) (hfirst : first.isDirectory = true) :
    featureLoop ns context stored depth all (sources.map (backing ns)) (first :: found) false =
      .ok (first :: found ++ (dirsBelow ns stored sources).map (backing ns), false) := by
  induction sources generalizing found with
  | nil => simp [featureLoop, dirsBelow]
  | cons source lower ih =>
    obtain ⟨hsource, hlower⟩ := List.forall_mem_cons.mp hplain
    rw [List.map_cons, featureLoop, entry_plain hsource hname, dirsBelow]
    cases hlookup : source.1.entries.lookup stored with
    | none => exact ih hlower found
    | some entry =>
      have hrest := ih hlower (found ++ [backing ns (entry, source.2)])
      cases hwhiteout : entry.isWhiteout ns with
      | true => simp [hwhiteout]
      | false =>
        cases hdirectory : entry.isDirectory with
        | false => simp [featureEntry_plain, hwhiteout, hdirectory, hfirst]
        | true =>
          cases hopaque : entry.isOpaque ns with
          | true => simp [featureEntry_plain, hwhiteout, hdirectory, hopaque, hfirst]
          | false =>
            simp [featureEntry_plain, hwhiteout, hdirectory, hopaque, hfirst, hrest]

theorem featureLoop_merged (hname : HostName stored) (context : LookupContext) (depth : Nat)
    (all : List Backing) (sources : List Source) (hplain : ∀ s ∈ sources, s.1.Plain ns) :
    featureLoop ns context stored depth all (sources.map (backing ns)) [] false =
      .ok ((merged ns stored sources).map (backing ns), false) := by
  induction sources with
  | nil => rfl
  | cons source lower ih =>
    obtain ⟨hsource, hlower⟩ := List.forall_mem_cons.mp hplain
    rw [List.map_cons, featureLoop, entry_plain hsource hname, merged]
    cases hlookup : source.1.entries.lookup stored with
    | none => exact ih hlower
    | some entry =>
      cases hwhiteout : entry.isWhiteout ns with
      | true => simp [hwhiteout]
      | false =>
        cases hdirectory : entry.isDirectory with
        | false => simp [featureEntry_plain, hwhiteout, hdirectory]
        | true =>
          have hbelow := featureLoop_below hname context depth all lower hlower
            (backing ns (entry, source.2)) [] hdirectory
          cases hopaque : entry.isOpaque ns with
          | true => simp [featureEntry_plain, hwhiteout, hdirectory, hopaque]
          | false => simp [featureEntry_plain, hwhiteout, hdirectory, hopaque, hbelow]

/-! ## Nodes -/

variable (ns)

def nodeOf (context : Option LookupContext) (first : Source) (rest : List Source) : Node where
  first := backing ns first
  rest := rest.map (backing ns)
  ns
  context

def nodeOfSources (context : Option LookupContext) : List Source → Except Int Node
  | [] => .error ENOENT
  | first :: rest => .ok (nodeOf ns context first rest)

variable {ns}

theorem validate_hostName (h : validateComponent name = .ok ()) :
    HostName (escapeComponent name) := by
  unfold validateComponent at h
  split at h
  · cases h
  · next hplain =>
    simp only [Bool.or_eq_true, List.isEmpty_iff, beq_iff_eq, List.any_eq_true, not_or,
      not_exists, not_and] at hplain
    exact escapeComponent_hostName hplain.1.1.1 fun hslash => (hplain.2 '/' hslash).1.1 rfl

variable {context : LookupContext}

theorem completeEntries_plain (hcontext : context.Featureless) (first : Source) (rest : List Source)
    :
    completeEntries context ((first :: rest).map (backing ns)) =
      .ok ((first :: rest).map (backing ns)) := by
  unfold completeEntries
  simp only [List.map_cons, List.head?_cons, Option.any_some, backing_isDirectory, backing_metacopy,
    hcontext.exported, hcontext.indexed, ite_self]
  rfl

theorem featureChild_nodeOf (hcontext : context.Featureless) {first : Source} {rest : List Source}
    (hplain : ∀ s ∈ first :: rest, s.1.Plain ns) (hname : validateComponent name = .ok ()) :
    (nodeOf ns (some context) first rest).featureChild context name 0 = if first.1.isDirectory then
        nodeOfSources ns (some context) (merged ns (escapeComponent name) (first :: rest))
      else .error ENOTDIR := by
  have hloop := featureLoop_merged (validate_hostName hname) context 0
    ((first :: rest).map (backing ns)) (first :: rest) hplain
  unfold Node.featureChild
  rw [hname]
  cases hdirectory : first.1.isDirectory with
  | false =>
    have hnode : (nodeOf ns (some context) first rest).isDirectory = false := hdirectory
    simp only [hnode]
    rfl
  | true =>
    have hnode : (nodeOf ns (some context) first rest).isDirectory = true := hdirectory
    have hentries : (nodeOf ns (some context) first rest).entries =
        (first :: rest).map (backing ns) := rfl
    have hns : (nodeOf ns (some context) first rest).ns = ns := rfl
    simp only [hnode, hentries, hns, hloop]
    cases hmerged : merged ns (escapeComponent name) (first :: rest) with
    | nil => rfl
    | cons source lower =>
      have hcomplete : completeEntries context ((source :: lower).map (backing ns)) =
          .ok ((source :: lower).map (backing ns)) :=
        completeEntries_plain hcontext source lower
      rw [List.map_cons] at hcomplete
      change (completeEntries context (backing ns source :: lower.map (backing ns)) >>=
        Node.ofEntries ns (some context)) = _
      rw [hcomplete]
      rfl

theorem child_nodeOf {context : Option LookupContext}
    (hcontext : ∀ c, context = some c → c.Featureless) {first : Source} {rest : List Source}
    (hplain : ∀ s ∈ first :: rest, s.1.Plain ns) (hname : validateComponent name = .ok ()) :
    (nodeOf ns context first rest).child name = if first.1.isDirectory then
        nodeOfSources ns context (merged ns (escapeComponent name) (first :: rest))
      else .error ENOTDIR := by
  cases context with
  | some context => exact featureChild_nodeOf (hcontext context rfl) hplain hname
  | none =>
    have hloop := childLoop_merged (validate_hostName hname) (first :: rest) hplain
    unfold Node.child
    change (validateComponent name >>= _) = _
    rw [hname]
    cases hdirectory : first.1.isDirectory with
    | false =>
      have hnode : (nodeOf ns none first rest).isDirectory = false := hdirectory
      simp only [hnode]
      rfl
    | true =>
      have hnode : (nodeOf ns none first rest).isDirectory = true := hdirectory
      have hentries : (nodeOf ns none first rest).entries = (first :: rest).map (backing ns) := rfl
      have hns : (nodeOf ns none first rest).ns = ns := rfl
      simp only [hnode, hentries, hns, hloop]
      cases hmerged : merged ns (escapeComponent name) (first :: rest) with
      | nil | cons => rfl

theorem child_invalid {n m : Node} (hname : validateComponent name ≠ .ok ()) :
    n.child name ≠ .ok m := by
  cases hvalid : validateComponent name with
  | ok u => exact absurd hvalid hname
  | error e =>
    unfold Node.child
    cases n.context with
    | none | some =>
      change (validateComponent name >>= _) ≠ _
      rw [hvalid]
      nofun

end Kinakaze.Overlay
