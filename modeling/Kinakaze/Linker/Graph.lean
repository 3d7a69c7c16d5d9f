import Mathlib.Data.List.Flatten
import Kinakaze.Library.Traversal
import Kinakaze.Linker.State

/-!
# Dependency graphs and the states that loading them reaches

A provider apart from the position it was loaded at is a `Node`: an object by
its canonical path, a facade by its name.  `NamedGraph` says that every
`DT_NEEDED` entry is found and that a name belongs to one provider, whichever
of the three ways the linker recognises it by.
-/

namespace Kinakaze.Linker

open Library

variable {Path : Type} [DecidableEq Path]

/-- A provider, apart from the position it was loaded at. -/
inductive Node (Path : Type)
  | object (path : Path)
  | facade (soname : String)
  deriving DecidableEq

/-- What the file at a path declares. -/
def imageAt (world : World Path) (path : Path) : Except (LinkError Path) ElfImage := do
  let bytes ← world.readElf path
  world.mapImage path bytes

/-- The `DT_NEEDED` targets of a node, in order, when `target` says where a name leads. -/
def nodeDeps (world : World Path) (target : String → Node Path) : Node Path → List (Node Path)
  | .facade _ => []
  | .object path =>
    match imageAt world path with
    | .ok image => image.needed.map target
    | .error _ => []

/-- The entry `name` of the object at `path` is found, and is that provider. -/
inductive Leads (world : World Path) (path : Path) (image : ElfImage) (name : String) :
    Node Path → Prop
  | registered {facade : ProviderImage} :
      world.registered name = .ok (some facade) →
      Leads world path image name (.facade facade.soname)
  | facadeFile {resolved : Path} {facade : ProviderImage} :
      world.registered name = .ok none →
      search world (directoriesOf world image path) name = some resolved →
      world.registeredAt resolved = .ok (some facade) →
      Leads world path image name (.facade facade.soname)
  | objectFile {resolved : Path} {bytes : List UInt8} :
      world.registered name = .ok none →
      search world (directoriesOf world image path) name = some resolved →
      world.registeredAt resolved = .ok none →
      world.readElf resolved = .ok bytes →
      world.readElf (world.canonicalize resolved) = .ok bytes →
      Leads world path image name (.object (world.canonicalize resolved))

/-- Some object of `nodes` has the entry `name`. -/
def Wanted (world : World Path) (nodes : List (Node Path)) (name : String) : Prop :=
  ∃ path image, .object path ∈ nodes ∧ imageAt world path = .ok image ∧ name ∈ image.needed

/-- A finite graph below `root` in which every name is found and belongs to one provider. -/
structure NamedGraph (world : World Path) (root : Path) (requestedName : Option String) where
  nodes : List (Node Path)
  target : String → Node Path
  root_mem : .object (world.canonicalize root) ∈ nodes
  readable : ∀ path, .object path ∈ nodes → ∃ image, imageAt world path = .ok image
  leads : ∀ path image, .object path ∈ nodes → imageAt world path = .ok image →
    ∀ name ∈ image.needed, target name ∈ nodes ∧ Leads world path image name (target name)
  /-- An object is the target of its own names, where a search would be made for them. -/
  answers : ∀ path image name, .object path ∈ nodes → imageAt world path = .ok image →
    Wanted world nodes name → world.registered name = .ok none →
    image.soname = some name ∨ world.fileName path = some name → target name = .object path
  root_answers : ∀ image, imageAt world (world.canonicalize root) = .ok image →
    ∀ name, Wanted world nodes name → world.registered name = .ok none →
      resolveName world image (world.canonicalize root) requestedName = name →
      target name = .object (world.canonicalize root)
  /-- There are fewer entries than a reference count can count. -/
  countable : (nodes.flatMap (nodeDeps world target)).length + 1 < usize

section Steps

variable {world : World Path} {root : Path} {requestedName : Option String}

/-- The `DT_NEEDED` graph. -/
def NamedGraph.deps (graph : NamedGraph world root requestedName) : Node Path → List (Node Path) :=
  nodeDeps world graph.target

variable {graph : NamedGraph world root requestedName}

theorem NamedGraph.deps_object {path : Path} {image : ElfImage}
    (himage : imageAt world path = .ok image) :
    graph.deps (.object path) = image.needed.map graph.target := by
  simp [NamedGraph.deps, nodeDeps, himage]

theorem NamedGraph.closed (graph : NamedGraph world root requestedName) :
    ClosedUnder graph.deps graph.nodes := by
  intro node hnode next hnext
  cases node with
  | facade soname => cases hnext
  | object path =>
    obtain ⟨image, himage⟩ := graph.readable path hnode
    rw [NamedGraph.deps_object himage] at hnext
    obtain ⟨name, hname, rfl⟩ := List.mem_map.mp hnext
    exact (graph.leads path image hnode himage name hname).1

/-- The node at a position of the scope. -/
def nodeOf (linker : Linker Path) : Provider → Option (Node Path)
  | .elf id => linker.objects[id]?.map fun object => .object object.path
  | .dll index => linker.scope.dlls[index]?.map fun dll => .facade dll.name

/-- The providers at the positions are these nodes. -/
def Names (linker : Linker Path) (providers : List Provider) (nodes : List (Node Path)) : Prop :=
  providers.map (nodeOf linker) = nodes.map some

/-- The entries of the listed nodes that name `node`. -/
def NamedGraph.edges (graph : NamedGraph world root requestedName) (listed : List (Node Path))
    (node : Node Path) : Nat :=
  (listed.flatMap graph.deps).count node

/-- The state lists `listed` and has counted `refs`. -/
structure Holds (graph : NamedGraph world root requestedName) (linker : Linker Path)
    (listed : List (Node Path)) (refs : Node Path → Nat) : Prop where
  providers : Names linker linker.scope.providers listed
  order : linker.scope.order = linker.scope.providers.filterMap Provider.object?
  aligned : linker.providerDependencies.length = linker.objects.length
  within : listed ⊆ graph.nodes
  nodup : listed.Nodup
  objects : ∀ path, .object path ∈ listed ↔ path ∈ linker.objects.map (·.path)
  facades : ∀ soname, .facade soname ∈ listed ↔ soname ∈ linker.scope.dlls.map (·.name)
  paths : (linker.objects.map (·.path)).Nodup
  names : (linker.scope.dlls.map (·.name)).Nodup
  answers : ∀ object ∈ linker.objects, Wanted world graph.nodes object.name →
    world.registered object.name = .ok none → graph.target object.name = .object object.path
  objectRefs : ∀ object ∈ linker.objects, object.references = refs (.object object.path)
  dllRefs : ∀ dll ∈ linker.scope.dlls, dll.references = refs (.facade dll.name)
  unlistedRefs : ∀ node, node ∉ listed → refs node = 0

/-- What is in the tables stays, apart from the reference counts. -/
structure Grew (s s' : Linker Path) : Prop where
  objects : ∀ (id : Nat) (object : MappedObject Path), s.objects[id]? = some object →
    ∃ object' : MappedObject Path, s'.objects[id]? = some object' ∧
      object'.path = object.path ∧ object'.dependencies = object.dependencies
  dlls : ∀ (index : Nat) (dll : DllProvider), s.scope.dlls[index]? = some dll →
    ∃ dll' : DllProvider, s'.scope.dlls[index]? = some dll' ∧ dll'.name = dll.name
  dependencies : ∀ (id : Nat) (providers : List Provider), s.providerDependencies[id]? = some providers →
    s'.providerDependencies[id]? = some providers

theorem Grew.refl (s : Linker Path) : Grew s s :=
  ⟨fun _ object h => ⟨object, h, rfl, rfl⟩, fun _ dll h => ⟨dll, h, rfl⟩, fun _ _ h => h⟩

theorem Grew.trans {s s' s'' : Linker Path} (h : Grew s s') (h' : Grew s' s'') : Grew s s'' := by
  refine ⟨fun id object hobject => ?_, fun index dll hdll => ?_, fun id providers hp =>
    h'.dependencies id providers (h.dependencies id providers hp)⟩
  · obtain ⟨object', hobject', hpath, hdeps⟩ := h.objects id object hobject
    obtain ⟨object'', hobject'', hpath', hdeps'⟩ := h'.objects id object' hobject'
    exact ⟨object'', hobject'', hpath'.trans hpath, hdeps'.trans hdeps⟩
  · obtain ⟨dll', hdll', hname⟩ := h.dlls index dll hdll
    obtain ⟨dll'', hdll'', hname'⟩ := h'.dlls index dll' hdll'
    exact ⟨dll'', hdll'', hname'.trans hname⟩

theorem Grew.nodeOf {s s' : Linker Path} (h : Grew s s') {provider : Provider} {node : Node Path}
    (hnode : nodeOf s provider = some node) : nodeOf s' provider = some node := by
  cases provider with
  | elf id =>
    obtain ⟨object, hobject, rfl⟩ := Option.map_eq_some_iff.mp hnode
    obtain ⟨object', hobject', hpath, -⟩ := h.objects id object hobject
    simp [Linker.nodeOf, hobject', hpath]
  | dll index =>
    obtain ⟨dll, hdll, rfl⟩ := Option.map_eq_some_iff.mp hnode
    obtain ⟨dll', hdll', hname⟩ := h.dlls index dll hdll
    simp [Linker.nodeOf, hdll', hname]

theorem Grew.names {s s' : Linker Path} (h : Grew s s') {providers : List Provider}
    {nodes : List (Node Path)} (hnames : Names s providers nodes) : Names s' providers nodes := by
  unfold Names at *
  induction providers generalizing nodes with
  | nil => simpa using hnames
  | cons provider providers ih =>
    cases nodes with
    | nil => simp at hnames
    | cons node nodes =>
      simp only [List.map_cons, List.cons.injEq] at hnames ⊢
      exact ⟨h.nodeOf hnames.1, ih hnames.2⟩

/-- The dependencies of the object at `id` are recorded as the graph has them. -/
def Linked (graph : NamedGraph world root requestedName) (s : Linker Path) (id : Nat) : Prop :=
  ∃ object providers, s.objects[id]? = some object ∧ s.providerDependencies[id]? = some providers ∧
    Names s providers (graph.deps (.object object.path)) ∧
    object.dependencies = providers.filterMap Provider.object?

theorem Linked.mono {s s' : Linker Path} {id : Nat} (h : Linked graph s id) (hgrew : Grew s s') :
    Linked graph s' id := by
  obtain ⟨object, providers, hobject, hproviders, hnames, hdeps⟩ := h
  obtain ⟨object', hobject', hpath, hdeps'⟩ := hgrew.objects id object hobject
  refine ⟨object', providers, hobject', hgrew.dependencies id providers hproviders, ?_,
    hdeps'.trans hdeps⟩
  rw [hpath]
  exact hgrew.names hnames

/-- From `s` to `s'`, the entries `requests` were satisfied. -/
structure Loaded (graph : NamedGraph world root requestedName) (requests : List (Node Path))
    (s s' : Linker Path) (listed listed' : List (Node Path)) (refs refs' : Node Path → Nat) :
    Prop where
  holds : Holds graph s' listed' refs'
  grew : Grew s s'
  linked : ∀ id, s.objects.length ≤ id → id < s'.objects.length → Linked graph s' id
  counted : ∀ node, refs' node + graph.edges listed node =
    refs node + requests.count node + graph.edges listed' node

variable {listed : List (Node Path)} {refs : Node Path → Nat}

theorem Loaded.refl {s : Linker Path}
    (h : Holds graph s listed refs) : Loaded graph [] s s listed listed refs refs :=
  ⟨h, Grew.refl s, fun _ hle hlt => absurd hlt (Nat.not_lt.mpr hle), fun _ => by simp⟩

variable {requests requests' listed' : List (Node Path)}

theorem Loaded.trans {s s' s'' : Linker Path} {listed'' : List (Node Path)}
    {refs' refs'' : Node Path → Nat} (h : Loaded graph requests s s' listed listed' refs refs')
    (h' : Loaded graph requests' s' s'' listed' listed'' refs' refs'') :
    Loaded graph (requests ++ requests') s s'' listed listed'' refs refs'' := by
  refine ⟨h'.holds, h.grew.trans h'.grew, fun id hle hlt => ?_, fun node => ?_⟩
  · by_cases hid : id < s'.objects.length
    · exact (h.linked id hle hid).mono h'.grew
    · exact h'.linked id (Nat.not_lt.mp hid) hlt
  · have hcount := h.counted node
    have hcount' := h'.counted node
    rw [List.count_append]
    omega

/-- The counts have room for `requests` and for every entry not looked at yet. -/
def Affordable (graph : NamedGraph world root requestedName) (requests listed : List (Node Path))
    (refs : Node Path → Nat) : Prop :=
  ∀ node, refs node + requests.count node + graph.edges graph.nodes node <
    usize + graph.edges listed node

theorem Loaded.affordable {s s' : Linker Path}
    {refs' : Node Path → Nat} (h : Loaded graph requests s s' listed listed' refs refs')
    (hroom : Affordable graph (requests ++ requests') listed refs) :
    Affordable graph requests' listed' refs' := by
  intro node
  have hcount := h.counted node
  have hroom' := hroom node
  rw [List.count_append] at hroom'
  omega

theorem edges_le (hnodup : listed.Nodup) (hwithin : listed ⊆ graph.nodes) (node : Node Path) :
    graph.edges listed node ≤ graph.edges graph.nodes node := by
  obtain ⟨part, hperm, hsub⟩ := List.subperm_of_subset hnodup hwithin
  unfold NamedGraph.edges
  rw [← (hperm.flatMap_right graph.deps).count_eq]
  exact (hsub.flatMap graph.deps).count_le node

theorem Affordable.lt_usize {node : Node Path} (hroom : Affordable graph [node] listed refs)
    (hnodup : listed.Nodup) (hwithin : listed ⊆ graph.nodes) : refs node + 1 < usize := by
  have hnode := hroom node
  have hle := edges_le hnodup hwithin node
  rw [List.count_singleton_self] at hnode
  omega

/-- One more reference to `node`. -/
def countOne (refs : Node Path → Nat) (node : Node Path) : Node Path → Nat :=
  Function.update refs node (refs node + 1)

theorem countOne_counted (refs : Node Path → Nat) (node other : Node Path) :
    countOne refs node other = refs other + [node].count other := by
  unfold countOne
  rcases eq_or_ne other node with rfl | hne
  · simp
  · simp [Function.update_of_ne hne, hne.symm]

/-! ### One step each -/

section Updates

variable {s : Linker Path} {listed : List (Node Path)} {refs : Node Path → Nat}

theorem map_modify_eq {α β : Type} {f : α → α} {g : α → β} (h : ∀ a, g (f a) = g a) (l : List α)
    (i : Nat) : (l.modify i f).map g = l.map g := by
  apply List.ext_getElem?
  intro j
  rw [List.getElem?_map, List.getElem?_map, List.getElem?_modify]
  cases l[j]? with
  | none => rfl
  | some a =>
    by_cases hij : i = j
    · simp [hij, h]
    · simp [hij]

theorem mem_modify {α : Type} {f : α → α} {l : List α} {i : Nat} {a : α} (h : a ∈ l.modify i f) :
    (∃ b, l[i]? = some b ∧ a = f b) ∨ ∃ j, j ≠ i ∧ l[j]? = some a := by
  obtain ⟨j, hj⟩ := List.mem_iff_getElem?.mp h
  rw [List.getElem?_modify] at hj
  obtain ⟨b, hb, hba⟩ := Option.map_eq_some_iff.mp hj
  by_cases hij : i = j
  · subst hij
    exact .inl ⟨b, hb, by simpa using hba.symm⟩
  · rw [if_neg hij] at hba
    exact .inr ⟨j, fun heq => hij heq.symm, by rw [hb]; exact congrArg some hba⟩

omit [DecidableEq Path] in
theorem grew_modify (s : Linker Path) (i : Nat) {f : MappedObject Path → MappedObject Path}
    (hf : ∀ object, (f object).path = object.path ∧ (f object).dependencies = object.dependencies) :
    Grew s { s with objects := s.objects.modify i f } := by
  refine ⟨fun id object hobject => ?_, fun _ dll h => ⟨dll, h, rfl⟩, fun _ _ h => h⟩
  simp only [List.getElem?_modify, hobject, Option.map_eq_map, Option.map_some]
  by_cases hid : i = id
  · exact ⟨f object, by simp [hid], hf object⟩
  · exact ⟨object, by simp [hid], rfl, rfl⟩

omit [DecidableEq Path] in
theorem Holds.object_mem (h : Holds graph s listed refs) {id : Nat} {object : MappedObject Path}
    (hobject : s.objects[id]? = some object) : .object object.path ∈ listed :=
  (h.objects _).mpr (List.mem_map_of_mem (List.mem_of_getElem? hobject))

theorem Holds.countOne_unlisted (h : Holds graph s listed refs) {node : Node Path}
    (hmem : node ∈ listed') (hsub : listed ⊆ listed' := by simp) :
    ∀ other, other ∉ listed' → countOne refs node other = 0 := by
  intro other hother
  have hne : other ≠ node := fun heq => hother (heq ▸ hmem)
  rw [countOne, Function.update_of_ne hne]
  exact h.unlistedRefs other fun hold => hother (hsub hold)

/-- `references += 1` on the object of a node that is listed. -/
theorem Holds.retainObject (h : Holds graph s listed refs) {id : Nat}
    {object : MappedObject Path} (hobject : s.objects[id]? = some object)
    (hroom : Affordable graph [.object object.path] listed refs) :
    Loaded graph [.object object.path] s (retainObject s id) listed listed refs
      (countOne refs (.object object.path)) := by
  have hgrew : Grew s (Linker.retainObject s id) := grew_modify s id fun _ => ⟨rfl, rfl⟩
  have hpaths : (Linker.retainObject s id).objects.map (·.path) = s.objects.map (·.path) :=
    map_modify_eq (f := MappedObject.retain) (fun _ => rfl) _ _
  have hlt := hroom.lt_usize h.nodup h.within
  have hrefs := h.objectRefs object (List.mem_of_getElem? hobject)
  refine ⟨⟨hgrew.names h.providers, h.order, by simpa [Linker.retainObject] using h.aligned,
    h.within, h.nodup, by rw [hpaths]; exact h.objects, h.facades, by rw [hpaths]; exact h.paths,
    h.names, ?_, ?_, ?_, h.countOne_unlisted (h.object_mem hobject)⟩, hgrew,
    fun i hle hi => ?_, fun node => ?_⟩
  · intro other hother
    rcases mem_modify hother with ⟨old, hold, rfl⟩ | ⟨j, -, hj⟩
    · exact h.answers old (List.mem_of_getElem? hold)
    · exact h.answers other (List.mem_of_getElem? hj)
  · intro other hother
    rcases mem_modify hother with ⟨old, hold, rfl⟩ | ⟨j, hne, hj⟩
    · rw [hobject] at hold
      cases hold
      simp [MappedObject.retain, countOne, hrefs, Nat.mod_eq_of_lt hlt]
    have hpath : other.path ≠ object.path := by
      intro heq
      have hlt : j < (s.objects.map (·.path)).length := by
        rw [List.length_map]
        exact (List.getElem?_eq_some_iff.mp hj).1
      exact hne ((List.getElem?_inj hlt h.paths).mp (by simp [hj, hobject, heq]))
    rw [h.objectRefs other (List.mem_of_getElem? hj), countOne,
      Function.update_of_ne (by simpa using hpath)]
  · intro dll hdll
    rw [h.dllRefs dll hdll, countOne, Function.update_of_ne (by simp)]
  · simp only [Linker.retainObject, List.length_modify] at hi
    omega
  · rw [countOne_counted]

/-- `add_reference` on the facade of a node that is listed. -/
theorem Holds.retainDll (h : Holds graph s listed refs) {index : Nat} {dll : DllProvider}
    (hdll : s.scope.dlls[index]? = some dll) :
    Loaded graph [.facade dll.name] s
      (setDll s index dll.retain) listed listed refs (countOne refs (.facade dll.name)) := by
  have hmem : .facade dll.name ∈ listed :=
    (h.facades _).mpr (List.mem_map_of_mem (List.mem_of_getElem? hdll))
  have hset : ∀ j, (s.scope.dlls.set index dll.retain)[j]? = if index = j then some dll.retain
      else s.scope.dlls[j]? := by
    intro j
    have hlt := (List.getElem?_eq_some_iff.mp hdll).1
    rw [List.getElem?_set]
    by_cases hj : index = j
    · subst hj
      simp [hlt]
    · simp [hj]
  have hgrew : Grew s (setDll s index dll.retain) := by
    refine ⟨fun _ object hobject => ⟨object, hobject, rfl, rfl⟩, fun j old hold => ?_,
      fun _ _ hp => hp⟩
    simp only [setDll, hset]
    by_cases hj : index = j
    · subst hj
      rw [hdll] at hold
      cases hold
      exact ⟨_, if_pos rfl, rfl⟩
    · exact ⟨old, by rw [if_neg hj, hold], rfl⟩
  have hnames : (s.scope.dlls.set index dll.retain).map (·.name) = s.scope.dlls.map (·.name) := by
    apply List.ext_getElem?
    intro j
    rw [List.getElem?_map, List.getElem?_map, hset]
    by_cases hj : index = j
    · subst hj
      simp [hdll]
    · rw [if_neg hj]
  refine ⟨⟨hgrew.names h.providers, h.order, h.aligned, h.within, h.nodup, h.objects,
    by simpa only [setDll, hnames] using h.facades, h.paths, by simpa only [setDll, hnames] using h.names,
    h.answers, ?_, ?_, h.countOne_unlisted hmem⟩, hgrew,
    fun i hle hi => absurd hi (Nat.not_lt.mpr hle), fun node => ?_⟩
  · intro object hobject
    rw [h.objectRefs object hobject, countOne, Function.update_of_ne (by simp)]
  · intro other hother
    obtain ⟨j, hj⟩ := List.mem_iff_getElem?.mp hother
    simp only [setDll, hset] at hj
    by_cases hindex : index = j
    · rw [if_pos hindex] at hj
      cases hj
      simp [countOne, h.dllRefs dll (List.mem_of_getElem? hdll)]
    rw [if_neg hindex] at hj
    have hname : other.name ≠ dll.name := by
      intro heq
      have hlt : index < (s.scope.dlls.map (·.name)).length := by
        rw [List.length_map]
        exact (List.getElem?_eq_some_iff.mp hdll).1
      exact hindex ((List.getElem?_inj hlt h.names).mp (by simp [hj, hdll, heq]))
    rw [h.dllRefs other (List.mem_of_getElem? hj), countOne,
      Function.update_of_ne (by simpa using hname)]
  · rw [countOne_counted]

theorem edges_append (front back : List (Node Path)) (node : Node Path) :
    graph.edges (front ++ back) node = graph.edges front node + graph.edges back node := by
  simp [NamedGraph.edges, List.flatMap_append]

omit [DecidableEq Path] in
theorem getElem?_append_of_some {α : Type} {l : List α} {i : Nat} {a : α} (h : l[i]? = some a)
    (more : List α) : (l ++ more)[i]? = some a := by
  rw [List.getElem?_append_left (List.getElem?_eq_some_iff.mp h).1, h]

theorem nodup_append_singleton {α : Type} {l : List α} {a : α} (h : l.Nodup) (ha : a ∉ l) :
    (l ++ [a]).Nodup :=
  List.nodup_append.mpr ⟨h, List.pairwise_singleton _ a, by
    intro b hb c hc
    rw [List.mem_singleton.mp hc]
    exact fun heq => ha (heq ▸ hb)⟩

theorem Holds.pushDll (h : Holds graph s listed refs) {soname : String}
    (hnode : .facade soname ∈ graph.nodes) (hnew : .facade soname ∉ listed) :
    Loaded graph [.facade soname] s (pushDll s soname) listed (listed ++ [.facade soname]) refs
      (countOne refs (.facade soname)) := by
  have hgrew : Grew s (Linker.pushDll s soname) :=
    ⟨fun _ object hobject => ⟨object, hobject, rfl, rfl⟩,
      fun _ dll hdll => ⟨dll, getElem?_append_of_some hdll _, rfl⟩, fun _ _ hp => hp⟩
  have hfresh : soname ∉ s.scope.dlls.map (·.name) := fun hmem => hnew ((h.facades _).mpr hmem)
  refine ⟨⟨?_, ?_, h.aligned, ?_, nodup_append_singleton h.nodup hnew, ?_, ?_, h.paths, ?_,
    h.answers, ?_, ?_, h.countOne_unlisted (by simp)⟩, hgrew,
    fun i hle hi => absurd hi (Nat.not_lt.mpr hle), fun node => ?_⟩
  · have hold := hgrew.names h.providers
    simp only [Names, Linker.pushDll, Scope.pushProvider, List.map_append, List.map_singleton] at hold ⊢
    rw [hold]
    simp [Linker.nodeOf]
  · simp [Linker.pushDll, Scope.pushProvider, h.order, List.filterMap_append, Provider.object?]
  · exact List.append_subset.mpr ⟨h.within, by simpa using hnode⟩
  · intro path
    simpa [Linker.pushDll, Scope.pushProvider] using h.objects path
  · intro other
    have hold := h.facades other
    simp only [Linker.pushDll, Scope.pushProvider, List.map_append, List.mem_append, hold, List.mem_singleton,
      List.map_singleton, Node.facade.injEq]
  · simpa only [Linker.pushDll, Scope.pushProvider, List.map_append, List.map_singleton]
    using nodup_append_singleton h.names hfresh
  · intro object hobject
    rw [h.objectRefs object hobject, countOne, Function.update_of_ne (by simp)]
  · intro dll hdll
    simp only [Linker.pushDll, Scope.pushProvider, List.mem_append, List.mem_singleton] at hdll
    rcases hdll with hdll | rfl
    · have hname : dll.name ≠ soname := fun heq => hfresh (heq ▸ List.mem_map_of_mem hdll)
      rw [h.dllRefs dll hdll, countOne, Function.update_of_ne (by simpa using hname)]
    · simp [countOne, h.unlistedRefs _ hnew]
  · rw [countOne_counted, edges_append]
    simp [NamedGraph.edges, NamedGraph.deps, nodeDeps]

/-- Mapping an object that is not loaded yet; its entries are still to be looked at. -/
theorem Holds.pushObject (h : Holds graph s listed refs) {name : String} {path : Path}
    (hnode : .object path ∈ graph.nodes) (hnew : .object path ∉ listed)
    (hname : Wanted world graph.nodes name → world.registered name = .ok none →
      graph.target name = .object path) :
    Holds graph (pushObject s name path) (listed ++ [.object path]) (countOne refs (.object path)) ∧
      Grew s (pushObject s name path) := by
  have hgrew : Grew s (Linker.pushObject s name path) :=
    ⟨fun _ object hobject => ⟨object, getElem?_append_of_some hobject _, rfl, rfl⟩,
      fun _ dll hdll => ⟨dll, hdll, rfl⟩, fun _ _ hp => getElem?_append_of_some hp _⟩
  have hfresh : path ∉ s.objects.map (·.path) := fun hmem => hnew ((h.objects _).mpr hmem)
  refine ⟨⟨?_, ?_, ?_, ?_, nodup_append_singleton h.nodup hnew, ?_, ?_, ?_, h.names, ?_, ?_, ?_,
    h.countOne_unlisted (by simp)⟩, hgrew⟩
  · have hold := hgrew.names h.providers
    simp only [Names, Linker.pushObject, Scope.pushProvider, List.map_append,
      List.map_singleton] at hold ⊢
    rw [hold]
    simp [Linker.nodeOf]
  · simp [Linker.pushObject, Scope.pushProvider, h.order, List.filterMap_append, Provider.object?]
  · simp [Linker.pushObject, h.aligned]
  · exact List.append_subset.mpr ⟨h.within, by simpa using hnode⟩
  · intro other
    have hold := h.objects other
    simp only [Linker.pushObject, List.map_append, List.mem_append, hold, List.mem_singleton,
      List.map_singleton, Node.object.injEq]
  · intro soname
    simpa [Linker.pushObject, Scope.pushProvider] using h.facades soname
  · simpa only [Linker.pushObject, List.map_append, List.map_singleton]
    using nodup_append_singleton h.paths hfresh
  · intro object hobject
    simp only [Linker.pushObject, List.mem_append, List.mem_singleton] at hobject
    rcases hobject with hobject | rfl
    · exact h.answers object hobject
    · exact hname
  · intro object hobject
    simp only [Linker.pushObject, List.mem_append, List.mem_singleton] at hobject
    rcases hobject with hobject | rfl
    · have hpath : object.path ≠ path := fun heq => hfresh (heq ▸ List.mem_map_of_mem hobject)
      rw [h.objectRefs object hobject, countOne, Function.update_of_ne (by simpa using hpath)]
    · simp [countOne, h.unlistedRefs _ hnew]
  · intro dll hdll
    rw [h.dllRefs dll hdll, countOne, Function.update_of_ne (by simp)]

omit [DecidableEq Path] in
theorem setDependencies_paths (s : Linker Path) (id : Nat) (providers : List Provider) :
    (setDependencies s id providers).objects.map (·.path) = s.objects.map (·.path) := by
  apply map_modify_eq
  intro object
  rfl

omit [DecidableEq Path] in
theorem nodeOf_setDependencies (s : Linker Path) (id : Nat) (providers : List Provider) :
    nodeOf (setDependencies s id providers) = nodeOf s := by
  funext provider
  cases provider with
  | dll index => rfl
  | elf other =>
    have hget := congrArg (fun paths => (paths[other]?).map Node.object)
      (setDependencies_paths s id providers)
    simpa only [nodeOf, List.getElem?_map, Option.map_map, Function.comp_def] using hget

omit [DecidableEq Path] in
/-- Recording the dependencies of the object at `id` once they are satisfied. -/
theorem Holds.setDependencies (h : Holds graph s listed refs) (id : Nat)
    (providers : List Provider) : Holds graph (setDependencies s id providers) listed refs := by
  have hpaths := setDependencies_paths s id providers
  refine ⟨?_, h.order, by simpa [Linker.setDependencies] using h.aligned, h.within, h.nodup,
    by rw [hpaths]; exact h.objects, h.facades, by rw [hpaths]; exact h.paths, h.names, ?_, ?_,
    h.dllRefs, h.unlistedRefs⟩
  · unfold Names
    rw [nodeOf_setDependencies]
    exact h.providers
  · intro object hobject
    rcases mem_modify hobject with ⟨old, hold, rfl⟩ | ⟨j, -, hj⟩
    · exact h.answers old (List.mem_of_getElem? hold)
    · exact h.answers object (List.mem_of_getElem? hj)
  · intro object hobject
    rcases mem_modify hobject with ⟨old, hold, rfl⟩ | ⟨j, -, hj⟩
    · exact h.objectRefs old (List.mem_of_getElem? hold)
    · exact h.objectRefs object (List.mem_of_getElem? hj)

end Updates

end Steps

end Kinakaze.Linker
