import Kinakaze.Linker.Graph

/-!
# The order in which a graph is loaded

`load_graph_image` takes up the dependencies of an object as soon as the object
is listed, and the dependencies of the first of them before the second.  So it
lists the graph depth first, while the order it documents is breadth first.
-/

namespace Kinakaze.Linker

open Library

variable {Path : Type} [DecidableEq Path] {world : World Path} {root : Path}
  {requestedName : Option String} {graph : NamedGraph world root requestedName}
  {s : Linker Path} {listed : List (Node Path)} {refs : Node Path → Nat}

/-- The call leaves `node` loaded at `provider`, after listing what a visit lists. -/
def Satisfied (graph : NamedGraph world root requestedName) (fuel : Nat) (node : Node Path)
    (provider : Provider) (s s' : Linker Path) (listed : List (Node Path))
    (refs : Node Path → Nat) : Prop :=
  nodeOf s' provider = some node ∧
    ∃ refs', Loaded graph [node] s s' listed (visit graph.deps fuel listed node) refs refs'

variable {fuel id : Nat}

theorem visit_facade {soname : String} (hnew : .facade soname ∉ listed) :
    visit graph.deps (fuel + 1) listed (.facade soname) = listed ++ [.facade soname] := by
  rw [visit, if_neg hnew]
  rfl

/-! ## Facades -/

theorem loadRegistered_spec (h : Holds graph s listed refs) {image : ProviderImage}
    (hnode : .facade image.soname ∈ graph.nodes)
    (hfuel : (unlisted graph.nodes listed).length < fuel)
    (hroom : Affordable graph [.facade image.soname] listed refs) :
    ∃ index s', exec (loadRegistered image : LinkCall Path Nat) s = (.ok index, s') ∧
      Satisfied graph fuel (.facade image.soname) (.dll index) s s' listed refs := by
  unfold loadRegistered
  simp only [exec_bind, exec_get]
  cases hfind : s.scope.dlls.findIdx? (·.name = image.soname) with
  | some index =>
    obtain ⟨hlt, hname, -⟩ := List.findIdx?_eq_some_iff_getElem.mp hfind
    have hdll : s.scope.dlls[index]? = some s.scope.dlls[index] := List.getElem?_eq_getElem hlt
    have hname : (s.scope.dlls[index]).name = image.soname := by simpa using hname
    have hlisted : .facade image.soname ∈ listed :=
      (h.facades _).mpr (hname ▸ List.mem_map_of_mem (List.getElem_mem hlt))
    have hcount : (s.scope.dlls[index]).references + 1 < usize := by
      rw [h.dllRefs _ (List.getElem_mem hlt), hname]
      exact hroom.lt_usize h.nodup h.within
    have hloaded := h.retainDll hdll
    have hgrew := hloaded.grew.dlls index _ hdll
    refine ⟨index, setDll s index (s.scope.dlls[index]).retain, ?_, ?_,
      countOne refs (.facade image.soname), ?_⟩
    · simp only [hdll, require, exec_bind, exec_pure, DllProvider.addReference, hcount, if_true,
        exec_ofWorld_ok, exec_set]
    · obtain ⟨dll', hdll', hname'⟩ := hgrew
      simp only [nodeOf, hdll', Option.map_some, hname', hname]
    · rw [visit_listed hlisted]
      rw [hname] at hloaded
      exact hloaded
  | none =>
    have hnew : .facade image.soname ∉ listed := by
      rw [h.facades]
      intro hmem
      obtain ⟨dll, hdll, hname⟩ := List.mem_map.mp hmem
      have := List.findIdx?_eq_none_iff.mp hfind dll hdll
      simp [hname] at this
    obtain ⟨fuel, rfl⟩ := Nat.exists_eq_succ_of_ne_zero (Nat.ne_of_gt (by omega : 0 < fuel))
    refine ⟨s.scope.dlls.length, pushDll s image.soname, ?_, ?_,
      countOne refs (.facade image.soname), ?_⟩
    · simp only [exec_bind, exec_set, exec_pure]
    · simp [nodeOf, pushDll, Scope.pushProvider]
    · rw [visit_facade hnew]
      exact h.pushDll hnode hnew

/-! ## Objects -/

/-- What the recursive call does to a node that is an object. -/
def LoadsObjects (graph : NamedGraph world root requestedName) (fuel : Nat)
    (load : LoadImage Path) : Prop :=
  ∀ (path : Path) (requested : Option String) (bytes : Option (List UInt8)) (s : Linker Path)
    (listed : List (Node Path)) (refs : Node Path → Nat),
    Holds graph s listed refs →
    .object (world.canonicalize path) ∈ graph.nodes →
    (∀ found, bytes = some found → world.readElf (world.canonicalize path) = .ok found) →
    (∀ image, imageAt world (world.canonicalize path) = .ok image → ∀ name,
      Wanted world graph.nodes name → world.registered name = .ok none →
      resolveName world image (world.canonicalize path) requested = name →
      graph.target name = .object (world.canonicalize path)) →
    (unlisted graph.nodes listed).length < fuel →
    Affordable graph [.object (world.canonicalize path)] listed refs →
    ∃ id s', exec (load path requested bytes) s = (.ok id, s') ∧
      Satisfied graph fuel (.object (world.canonicalize path)) (.elf id) s s' listed refs

variable {object : MappedObject Path}

theorem retained_satisfied (h : Holds graph s listed refs) (hobject : s.objects[id]? = some object)
    (hroom : Affordable graph [.object object.path] listed refs) :
    Satisfied graph fuel (.object object.path) (.elf id) s (retainObject s id) listed refs := by
  have hloaded := h.retainObject hobject hroom
  obtain ⟨object', hobject', hpath, -⟩ := hloaded.grew.objects id object hobject
  refine ⟨by simp [nodeOf, hobject', hpath], countOne refs (.object object.path), ?_⟩
  rw [visit_listed (h.object_mem hobject)]
  exact hloaded

variable {load : LoadImage Path}

theorem satisfy_spec (hload : LoadsObjects graph fuel load) (h : Holds graph s listed refs)
    {path : Path} {image : ElfImage} {name : String} (requestedBy : String)
    (hpath : .object path ∈ graph.nodes) (himage : imageAt world path = .ok image)
    (hname : name ∈ image.needed) (hfuel : (unlisted graph.nodes listed).length < fuel)
    (hroom : Affordable graph [graph.target name] listed refs) :
    ∃ provider s', exec (satisfy world load (directoriesOf world image path) requestedBy name) s =
        (.ok provider, s') ∧
      Satisfied graph fuel (graph.target name) provider s s' listed refs := by
  have hwanted : Wanted world graph.nodes name := ⟨path, image, hpath, himage, hname⟩
  obtain ⟨hnode, hleads⟩ := graph.leads path image hpath himage name hname
  -- The object the linker recognises by a name is the one the graph means.
  have hrecognised : ∀ id, world.registered name = .ok none →
      s.objects.findIdx? (·.answersTo world name) = some id →
      ∃ object, s.objects[id]? = some object ∧ graph.target name = .object object.path := by
    intro id hnone hfind
    obtain ⟨hlt, hanswers, -⟩ := List.findIdx?_eq_some_iff_getElem.mp hfind
    refine ⟨s.objects[id], List.getElem?_eq_getElem hlt, ?_⟩
    have hmem := List.getElem_mem hlt
    simp only [MappedObject.answersTo, Bool.or_eq_true, decide_eq_true_eq] at hanswers
    rcases hanswers with hown | hfile
    · have hanswer := h.answers _ hmem
      rw [hown] at hanswer
      exact hanswer hwanted hnone
    · have hobject := h.within ((h.objects _).mpr (List.mem_map_of_mem hmem))
      obtain ⟨own, hown⟩ := graph.readable _ hobject
      exact graph.answers _ own name hobject hown hwanted hnone (.inr hfile)
  -- Otherwise the search decides.
  have hsearched : ∀ resolved, world.registered name = .ok none →
      search world (directoriesOf world image path) name = some resolved →
      (∃ provider s', exec (loadCandidate world load resolved name) s = (.ok provider, s') ∧
        Satisfied graph fuel (graph.target name) provider s s' listed refs) →
      ∃ provider s', exec (satisfy world load (directoriesOf world image path) requestedBy name) s =
          (.ok provider, s') ∧
        Satisfied graph fuel (graph.target name) provider s s' listed refs := by
    intro resolved hnone hsearch hcandidate
    unfold satisfy
    simp only [exec_bind, hnone, exec_ofWorld_ok, exec_get]
    cases hfind : s.objects.findIdx? (·.answersTo world name) with
    | some id =>
      obtain ⟨object, hobject, htarget⟩ := hrecognised id hnone hfind
      rw [htarget] at hroom ⊢
      exact ⟨.elf id, retainObject s id, by simp only [exec_bind, exec_set, exec_pure],
        retained_satisfied h hobject hroom⟩
    | none =>
      simp only [hsearch]
      exact hcandidate
  generalize htarget : graph.target name = node at *
  cases hleads with
  | @registered facade hfound =>
    obtain ⟨index, s', hexec, hsatisfied⟩ := loadRegistered_spec h hnode hfuel hroom
    refine ⟨.dll index, s', ?_, hsatisfied⟩
    simp only [satisfy, exec_bind, hfound, exec_ofWorld_ok, hexec, exec_pure]
  | @facadeFile resolved facade hnone hsearch hfound =>
    apply hsearched resolved hnone hsearch
    obtain ⟨index, s', hexec, hsatisfied⟩ := loadRegistered_spec h hnode hfuel hroom
    refine ⟨.dll index, s', ?_, hsatisfied⟩
    simp only [loadCandidate, exec_bind, hfound, exec_ofWorld_ok, exec_pure, hexec]
  | @objectFile resolved bytes hnone hsearch hfacade hread hcanonical =>
    apply hsearched resolved hnone hsearch
    have hrequested : ∀ own, imageAt world (world.canonicalize resolved) = .ok own →
        ∀ other, Wanted world graph.nodes other → world.registered other = .ok none →
        resolveName world own (world.canonicalize resolved) (some name) = other →
        graph.target other = .object (world.canonicalize resolved) := by
      intro own hown other hwanted' hnone' hresolve
      cases hsoname : own.soname with
      | some soname =>
        have hother : soname = other := by simpa [resolveName, hsoname] using hresolve
        exact graph.answers _ own other hnode hown hwanted' hnone' (.inl (by rw [hsoname, hother]))
      | none =>
        have hother : name = other := by simpa [resolveName, hsoname] using hresolve
        rw [← hother, htarget]
    have hbytes : ∀ found, some bytes = some found →
        world.readElf (world.canonicalize resolved) = .ok found := by
      rintro found ⟨⟩
      exact hcanonical
    obtain ⟨id, s', hexec, hsatisfied⟩ := hload resolved (some name) (some bytes) s listed refs h
      hnode hbytes hrequested hfuel hroom
    refine ⟨.elf id, s', ?_, hsatisfied⟩
    simp only [loadCandidate, exec_bind, hfacade, hnone, hread, exec_ofWorld_ok, hexec, exec_pure]

/-- The entries of an object one after the other. -/
theorem mapM_satisfy_spec (hload : LoadsObjects graph fuel load) {path : Path} {image : ElfImage}
    (requestedBy : String) (hpath : .object path ∈ graph.nodes)
    (himage : imageAt world path = .ok image) (names : List String) (hnames : names ⊆ image.needed)
    (h : Holds graph s listed refs) (hfuel : (unlisted graph.nodes listed).length < fuel)
    (hroom : Affordable graph (names.map graph.target) listed refs) :
    ∃ providers s' refs',
      exec (names.mapM (satisfy world load (directoriesOf world image path) requestedBy)) s =
        (.ok providers, s') ∧
      Names s' providers (names.map graph.target) ∧
      Loaded graph (names.map graph.target) s s' listed
        ((names.map graph.target).foldl (visit graph.deps fuel) listed) refs refs' := by
  induction names generalizing s listed refs with
  | nil => exact ⟨[], s, refs, rfl, rfl, Loaded.refl h⟩
  | cons name names ih =>
    have hfirst : Affordable graph [graph.target name] listed refs := by
      intro node
      have := hroom node
      simp only [List.map_cons, List.count_cons, List.count_nil] at this ⊢
      omega
    obtain ⟨provider, s₁, hexec, hnode, refs₁, hloaded⟩ := satisfy_spec hload h requestedBy
      hpath himage (hnames List.mem_cons_self) hfuel hfirst
    have hroom' : Affordable graph (names.map graph.target)
        (visit graph.deps fuel listed (graph.target name)) refs₁ := hloaded.affordable hroom
    have hfuel' : (unlisted graph.nodes (visit graph.deps fuel listed (graph.target name))).length
        < fuel :=
      Nat.lt_of_le_of_lt (unlisted_length_le (subset_visit _ _ _)) hfuel
    obtain ⟨providers, s', refs', hexec', hnames', hloaded'⟩ :=
      ih (fun other hother => hnames (List.mem_cons_of_mem name hother)) hloaded.holds hfuel' hroom'
    refine ⟨provider :: providers, s', refs', ?_, ?_, hloaded.trans hloaded'⟩
    · rw [List.mapM_cons]
      simp only [exec_bind, hexec, hexec', exec_pure]
    · simp only [Names, List.map_cons, hloaded'.grew.nodeOf hnode]
      exact congrArg _ hnames'

theorem Grew.setDependencies {s' : Linker Path} (h : Grew s s') (hid : s.objects.length ≤ id)
    (haligned : s.providerDependencies.length = s.objects.length)
    (providers : List Provider) : Grew s (setDependencies s' id providers) := by
  refine ⟨fun other object hobject => ?_, h.dlls, fun other recorded hrecorded => ?_⟩
  · obtain ⟨object', hobject', hpath, hdeps⟩ := h.objects other object hobject
    have hlt := (List.getElem?_eq_some_iff.mp hobject).1
    refine ⟨object', ?_, hpath, hdeps⟩
    simp only [Linker.setDependencies]
    rw [List.getElem?_modify_ne _ _ (by omega), hobject']
  · have hlt := (List.getElem?_eq_some_iff.mp hrecorded).1
    simp only [Linker.setDependencies]
    rw [List.getElem?_set_ne (by omega)]
    exact h.dependencies other recorded hrecorded

variable {providers : List Provider}

theorem linked_setDependencies (hobject : s.objects[id]? = some object)
    (hid : id < s.providerDependencies.length)
    (hnames : Names s providers (graph.deps (.object object.path))) :
    Linked graph (setDependencies s id providers) id := by
  have hnodeOf : nodeOf (setDependencies s id providers) = nodeOf s := nodeOf_setDependencies ..
  refine ⟨{ object with dependencies := providers.filterMap Provider.object? }, providers, ?_, ?_,
    ?_, rfl⟩
  · simp [setDependencies, hobject]
  · simp [setDependencies, hid]
  · unfold Names
    rw [hnodeOf]
    exact hnames

theorem Linked.setDependencies {other : Nat} (h : Linked graph s other) (hne : other ≠ id) :
    Linked graph (setDependencies s id providers) other := by
  obtain ⟨object, recorded, hobject, hrecorded, hnames, hdeps⟩ := h
  refine ⟨object, recorded, ?_, ?_, ?_, hdeps⟩
  · simp only [Linker.setDependencies]
    rw [List.getElem?_modify_ne _ _ hne.symm, hobject]
  · simp only [Linker.setDependencies]
    rw [List.getElem?_set_ne hne.symm, hrecorded]
  · unfold Names
    rw [nodeOf_setDependencies]
    exact hnames

theorem loadGraphImage_spec (graph : NamedGraph world root requestedName) (fuel : Nat) :
    LoadsObjects graph fuel (loadGraphImage world fuel) := by
  induction fuel with
  | zero => exact fun _ _ _ _ _ _ _ _ _ _ hfuel => absurd hfuel (Nat.not_lt_zero _)
  | succ fuel ih =>
    intro path requested bytes s listed refs h hnode hbytes hnamed hfuel hroom
    unfold loadGraphImage
    simp only [exec_bind, exec_get]
    cases hfind : s.objects.findIdx? (·.path = world.canonicalize path) with
    | some id =>
      obtain ⟨hlt, hpath, -⟩ := List.findIdx?_eq_some_iff_getElem.mp hfind
      have hpath : (s.objects[id]).path = world.canonicalize path := by simpa using hpath
      have hobject : s.objects[id]? = some s.objects[id] := List.getElem?_eq_getElem hlt
      refine ⟨id, retainObject s id, by simp only [exec_bind, exec_set, exec_pure], ?_⟩
      rw [← hpath] at hroom ⊢
      exact retained_satisfied h hobject hroom
    | none =>
      have hnew : .object (world.canonicalize path) ∉ listed := by
        rw [h.objects]
        intro hmem
        obtain ⟨object, hobject, hpath⟩ := List.mem_map.mp hmem
        have := List.findIdx?_eq_none_iff.mp hfind object hobject
        simp [hpath] at this
      obtain ⟨image, himage⟩ := graph.readable _ hnode
      obtain ⟨found, hread, hmap⟩ : ∃ found, world.readElf (world.canonicalize path) = .ok found ∧
          world.mapImage (world.canonicalize path) found = .ok image := by
        cases hread : world.readElf (world.canonicalize path) with
        | error e => simp [imageAt, hread, bind, Except.bind] at himage
        | ok found => exact ⟨found, rfl, by simpa [imageAt, hread, bind, Except.bind] using himage⟩
      generalize hname : resolveName world image (world.canonicalize path) requested = name
      obtain ⟨h₀, hgrew₀⟩ := h.pushObject hnode hnew
        fun hwanted hnone => hnamed image himage name hwanted hnone hname
      have hdeps : graph.deps (.object (world.canonicalize path)) =
          image.needed.map graph.target := NamedGraph.deps_object himage
      have hless := unlisted_length_lt hnode hnew
      have hroom₀ : Affordable graph (image.needed.map graph.target)
          (listed ++ [.object (world.canonicalize path)])
          (countOne refs (.object (world.canonicalize path))) := by
        intro node
        have hbefore := hroom node
        rw [countOne_counted, edges_append]
        simp only [NamedGraph.edges, List.flatMap_singleton, hdeps] at hbefore ⊢
        omega
      obtain ⟨providers, s', refs', hexec, hnames, hloaded⟩ := mapM_satisfy_spec
        ih name hnode himage image.needed (List.Subset.refl _) h₀
        (by omega) hroom₀
      obtain ⟨object, hobject, hpath, -⟩ := hloaded.grew.objects s.objects.length
        ⟨name, world.canonicalize path, [], 1⟩ (by simp [pushObject])
      refine ⟨s.objects.length, setDependencies s' s.objects.length providers, ?_, ?_, refs', ?_⟩
      · cases bytes with
        | none =>
          simp only [exec_bind, hread, hmap, exec_ofWorld_ok, exec_set, hname, hexec,
            exec_modify, exec_pure]
        | some given =>
          have hgiven := hbytes given rfl
          rw [hread] at hgiven
          cases hgiven
          simp only [exec_bind, exec_pure, hmap, exec_ofWorld_ok, exec_set, hname, hexec,
            exec_modify]
      · rw [nodeOf_setDependencies]
        simp only [nodeOf, hobject, Option.map_some, hpath]
      · rw [visit, if_neg hnew, hdeps]
        refine ⟨hloaded.holds.setDependencies _ _,
          (hgrew₀.trans hloaded.grew).setDependencies le_rfl h.aligned providers, ?_, ?_⟩
        · intro id hle hlt
          have haligned := hloaded.holds.aligned
          simp only [setDependencies, List.length_modify] at hlt
          rcases Nat.eq_or_lt_of_le hle with rfl | hgt
          · refine linked_setDependencies hobject (by omega) ?_
            rw [hpath, hdeps]
            exact hnames
          · refine (hloaded.linked id ?_ hlt).setDependencies (by omega)
            simp only [pushObject, List.length_append, List.length_singleton]
            omega
        · intro node
          have hcount := hloaded.counted node
          rw [countOne_counted, edges_append] at hcount
          simp only [NamedGraph.edges, List.flatMap_singleton, hdeps] at hcount ⊢
          omega

/-! ## The load order -/

/-- The breadth-first order of the graph, by a queue. -/
def NamedGraph.breadthFirst (graph : NamedGraph world root requestedName) : List (Node Path) :=
  let start := Node.object (world.canonicalize root)
  closure graph.deps (workLeft graph.deps graph.nodes [] [start]) [] [start]

/-- The breadth-first walk and a depth-first one never part: wherever the breadth-first walk
stands, the latest provider with an unlisted dependency has the same first one as the earliest. -/
def NamedGraph.NeverPart (graph : NamedGraph world root requestedName) : Prop :=
  ∀ k, 0 < k → k ≤ graph.breadthFirst.length → depthNext graph.deps (graph.breadthFirst.take k) =
      breadthNext graph.deps (graph.breadthFirst.take k)

theorem NamedGraph.breadthFirst_follows (graph : NamedGraph world root requestedName) :
    Follows (breadthNext graph.deps) (.object (world.canonicalize root)) graph.breadthFirst :=
  closure_follows graph.closed graph.root_mem le_rfl

/-- What a load of the whole graph is to leave behind. -/
structure LoadedInOrder (graph : NamedGraph world root requestedName) (s : Linker Path)
    (listed : List (Node Path)) : Prop where
  providers : Names s s.scope.providers listed
  order : s.scope.order = s.scope.providers.filterMap Provider.object?
  reachable : ∀ node, node ∈ listed ↔
    Relation.ReflTransGen (fun a b => b ∈ graph.deps a) (.object (world.canonicalize root)) node
  once : listed.Nodup
  linked : ∀ id, id < s.objects.length → Linked graph s id
  objectRefs : ∀ object ∈ s.objects, object.references =
    [Node.object (world.canonicalize root)].count (.object object.path) +
      graph.edges listed (.object object.path)
  dllRefs : ∀ dll ∈ s.scope.dlls, dll.references =
    [Node.object (world.canonicalize root)].count (.facade dll.name) +
      graph.edges listed (.facade dll.name)

/-- The providers are listed breadth first, so that a direct dependency of the root comes
before the dependencies of the others. -/
structure BreadthFirst (deps : Node Path → List (Node Path)) (root : Node Path)
    (listed : List (Node Path)) : Prop where
  follows : Follows (breadthNext deps) root listed
  interposes : ∀ direct ∈ deps root, ∀ node ∈ listed, node ≠ root → node ∉ deps root →
    listed.idxOf direct < listed.idxOf node

omit [DecidableEq Path] in
theorem Holds.new (graph : NamedGraph world root requestedName) :
    Holds graph (Linker.new Path) [] fun _ => 0 where
  providers := rfl
  order := rfl
  aligned := rfl
  within := List.nil_subset _
  nodup := List.nodup_nil
  objects := by simp [Linker.new]
  facades := by simp [Linker.new]
  paths := by simp [Linker.new]
  names := by simp [Linker.new]
  answers := by simp [Linker.new]
  objectRefs := by simp [Linker.new]
  dllRefs := by simp [Linker.new]
  unlistedRefs := fun _ _ => rfl

theorem loadGraph_lists (graph : NamedGraph world root requestedName)
    (hfuel : graph.nodes.length < fuel) :
    ∃ id s' listed, exec (loadGraph world fuel root requestedName) (Linker.new Path) =
        (.ok id, s') ∧
      Follows (depthNext graph.deps) (.object (world.canonicalize root)) listed ∧
      LoadedInOrder graph s' listed := by
  have hroom : Affordable graph [.object (world.canonicalize root)] [] fun _ => 0 := by
    intro node
    have hcount := List.count_le_length (a := node) (l := [Node.object (world.canonicalize root)])
    have hedges := List.count_le_length (a := node) (l := graph.nodes.flatMap graph.deps)
    have hbound := graph.countable
    simp only [List.length_singleton] at hcount
    change (graph.nodes.flatMap graph.deps).length + 1 < usize at hbound
    simp only [NamedGraph.edges]
    omega
  have hunlisted : (unlisted graph.nodes []).length < fuel := by simpa [unlisted] using hfuel
  obtain ⟨id, s', hexec, -, refs', hloaded⟩ := loadGraphImage_spec graph fuel root requestedName
    none (Linker.new Path) [] (fun _ => 0) (Holds.new graph) graph.root_mem (by simp)
    graph.root_answers hunlisted hroom
  have hfollows := visit_follows graph.closed graph.root_mem hfuel.le
  have hcounted : ∀ node, refs' node = [Node.object (world.canonicalize root)].count node +
      graph.edges (visit graph.deps fuel [] (.object (world.canonicalize root))) node := by
    intro node
    have := hloaded.counted node
    simp only [NamedGraph.edges, List.flatMap_nil, List.count_nil] at this ⊢
    omega
  refine ⟨id, s', _, hexec, hfollows, hloaded.holds.providers, hloaded.holds.order,
    fun node => hfollows.mem_iff depthNext_lists, hloaded.holds.nodup,
    fun id hlt => hloaded.linked id (Nat.zero_le _) hlt, fun object hobject => ?_,
    fun dll hdll => ?_⟩
  · rw [hloaded.holds.objectRefs object hobject, hcounted]
  · rw [hloaded.holds.dllRefs dll hdll, hcounted]

omit [DecidableEq Path] in
theorem Names.unique {nodes nodes' : List (Node Path)}
    (h : Names s providers nodes) (h' : Names s providers nodes') : nodes = nodes' :=
  List.map_injective_iff.mpr (Option.some_injective _) (h.symm.trans h')

/-- Loading a graph into an empty scope always succeeds, lists every reachable provider
once and counts its references; the listing is breadth first exactly when the two walks
over the graph never part. -/
theorem loads_breadth_first_iff (graph : NamedGraph world root requestedName) {fuel : Nat}
    (hfuel : graph.nodes.length < fuel) :
    ∃ id s', exec (loadGraph world fuel root requestedName) (Linker.new Path) = (.ok id, s') ∧
      (∃ listed, LoadedInOrder graph s' listed) ∧
      ((∃ listed, LoadedInOrder graph s' listed ∧
          BreadthFirst graph.deps (.object (world.canonicalize root)) listed) ↔
        graph.NeverPart) := by
  obtain ⟨id, s', listed, hexec, hfollows, hloaded⟩ := loadGraph_lists graph hfuel
  have horder := graph.breadthFirst_follows
  refine ⟨id, s', hexec, ⟨listed, hloaded⟩, ?_⟩
  rw [NamedGraph.NeverPart, ← horder.eq_iff hfollows]
  constructor
  · rintro ⟨listed', hloaded', hbreadth⟩
    have heq : listed = listed' := hloaded.providers.unique hloaded'.providers
    rw [heq]
    exact hbreadth.follows.unique horder
  · intro heq
    rw [heq] at hloaded
    exact ⟨_, hloaded, horder, fun direct hdirect node hnode hroot hnot =>
      horder.direct_first hdirect hnode hroot hnot⟩

/-! ### Two branches -/

/-- `root` needs `a` and `b`, and `a` needs `c`. -/
def branchesImage (path : String) : ElfImage where
  soname := none
  needed := if path = "root" then ["a", "b"] else if path = "a" then ["c"] else []
  searchPath := none

/-- A file system of these four files, in which a name is a path. -/
def branches : World String where
  registered _ := .ok none
  registeredAt _ := .ok none
  canonicalize path := path
  parent path := path
  join _ name := name
  fileName path := some path
  displayName path := path
  readElf _ := .ok []
  mapImage path _ := .ok (branchesImage path)
  resolveCandidate path := some path
  expandSearchPath _ _ := []
  libraryPaths := []
  extra := []
  systemPaths := []

def branchesGraph : NamedGraph branches "root" none where
  nodes := [.object "root", .object "a", .object "b", .object "c"]
  target name := .object name
  root_mem := by decide
  readable path _ := ⟨branchesImage path, rfl⟩
  leads := by
    rintro path image hpath ⟨⟩ name hname
    refine ⟨?_, @Leads.objectFile String branches path (branchesImage path) name name [] rfl rfl rfl rfl
      rfl⟩
    simp only [List.mem_cons, Node.object.injEq, List.not_mem_nil, or_false] at hpath
    rcases hpath with rfl | rfl | rfl | rfl <;>
      simp only [branchesImage] at hname <;> revert name <;> decide
  answers := by
    rintro path image name _ ⟨⟩ _ _ (hsoname | hfile)
    · cases hsoname
    · cases hfile
      rfl
  root_answers := by
    rintro image ⟨⟩ name _ _ rfl
    rfl
  countable := by decide

theorem loads_breadth_first_iff_branches :
    ∃ id s', exec (loadGraph branches 5 "root" none) (Linker.new String) = (.ok id, s') ∧
      (∃ listed, LoadedInOrder branchesGraph s' listed) ∧
      ((∃ listed, LoadedInOrder branchesGraph s' listed ∧
          BreadthFirst branchesGraph.deps (.object "root") listed) ↔ branchesGraph.NeverPart) :=
  loads_breadth_first_iff branchesGraph (by decide)

/-- `c` is loaded before `b`. -/
theorem branches_not_breadth_first :
    (exec (loadGraph branches 5 "root" none) (Linker.new String)).2.objects.map (·.path) =
        ["root", "a", "c", "b"] ∧
      ¬∃ listed, LoadedInOrder branchesGraph
          (exec (loadGraph branches 5 "root" none) (Linker.new String)).2 listed ∧
        BreadthFirst branchesGraph.deps (.object "root") listed := by
  refine ⟨by decide, ?_⟩
  rintro ⟨listed, hloaded, hbreadth⟩
  have hnames := hloaded.providers
  have hlisted : Names (exec (loadGraph branches 5 "root" none) (Linker.new String)).2
      (exec (loadGraph branches 5 "root" none) (Linker.new String)).2.scope.providers
      [.object "root", .object "a", .object "c", .object "b"] := by
    unfold Names
    decide
  have hnext := hbreadth.follows.next 2 (by decide)
  rw [hnames.unique hlisted] at hnext
  exact absurd (hnext (by decide)) (by decide)

end Kinakaze.Linker
