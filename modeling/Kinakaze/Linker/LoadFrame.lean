import Mathlib.Data.List.Nodup
import Kinakaze.Linker.Open

/-!
# What loading leaves alone

However a load ends, it has only appended to the tables and changed reference
counts of what was there; where it succeeds, everything it appended is reached
from the provider it returns.
-/

namespace Kinakaze.Linker

open Library

variable {Path : Type} [DecidableEq Path]

/-- The provider is an entry of its table. -/
def Linker.InRange (linker : Linker Path) : Provider → Prop
  | .elf id => id < linker.objects.length
  | .dll index => index < linker.scope.dlls.length

/-- The provider depends on `other`, over any number of steps. -/
def Linker.Reaches (linker : Linker Path) : Provider → Provider → Prop :=
  Relation.ReflTransGen fun provider next => next ∈ linker.dependenciesOf provider

/-- The scope lists exactly the objects and facades there are, each once, with one flag each,
and dependencies are recorded per object and are among them. -/
structure Aligned (linker : Linker Path) : Prop where
  dependencies : linker.providerDependencies.length = linker.objects.length
  globals : linker.scope.globals.length = linker.scope.providers.length
  nodup : linker.scope.providers.Nodup
  providers : ∀ provider, provider ∈ linker.scope.providers ↔ linker.InRange provider
  recorded : ∀ providers ∈ linker.providerDependencies, ∀ provider ∈ providers,
    linker.InRange provider

/-- An object without its count. -/
def MappedObject.uncounted (object : MappedObject Path) : MappedObject Path :=
  { object with references := 0 }

/-- From `s` to `s'` the tables only grew, by providers that are visible; counts may differ. -/
structure Appends (s s' : Linker Path) : Prop where
  objects : s.objects.map MappedObject.uncounted <+: s'.objects.map MappedObject.uncounted
  dlls : s.scope.dlls.map (·.name) <+: s'.scope.dlls.map (·.name)
  dependencies : s.providerDependencies <+: s'.providerDependencies
  providers : s.scope.providers <+: s'.scope.providers
  globals : ∃ count, s'.scope.globals = s.scope.globals ++ List.replicate count true

section Frame

variable {s s' s'' : Linker Path} {provider other : Provider}

omit [DecidableEq Path]

theorem Appends.refl (s : Linker Path) : Appends s s :=
  ⟨List.prefix_rfl, List.prefix_rfl, List.prefix_rfl, List.prefix_rfl, 0, by simp⟩

theorem Appends.trans (h : Appends s s') (h' : Appends s' s'') : Appends s s'' := by
  obtain ⟨count, hcount⟩ := h.globals
  obtain ⟨count', hcount'⟩ := h'.globals
  refine ⟨h.objects.trans h'.objects, h.dlls.trans h'.dlls,
    h.dependencies.trans h'.dependencies, h.providers.trans h'.providers, count + count', ?_⟩
  rw [hcount', hcount, List.append_assoc, List.replicate_append_replicate]

theorem Appends.inRange (h : Appends s s') (hin : s.InRange provider) : s'.InRange provider := by
  cases provider with
  | elf id =>
    have hle := h.objects.length_le
    rw [List.length_map, List.length_map] at hle
    exact Nat.lt_of_lt_of_le hin hle
  | dll index =>
    have hle := h.dlls.length_le
    rw [List.length_map, List.length_map] at hle
    exact Nat.lt_of_lt_of_le hin hle

theorem Appends.dependenciesOf (h : Appends s s') (hnext : other ∈ s.dependenciesOf provider) :
    other ∈ s'.dependenciesOf provider := by
  cases provider with
  | dll index => exact hnext
  | elf id =>
    simp only [Linker.dependenciesOf, List.getD_eq_getElem?_getD] at hnext ⊢
    cases hget : s.providerDependencies[id]? with
    | none => simp [hget] at hnext
    | some providers =>
      have hlt := (List.getElem?_eq_some_iff.mp hget).1
      obtain ⟨more, hmore⟩ := h.dependencies
      rw [← hmore, List.getElem?_append_left hlt]
      exact hnext

theorem Appends.reaches (h : Appends s s') (hreach : s.Reaches provider other) :
    s'.Reaches provider other :=
  Relation.ReflTransGen.mono (fun _ _ hnext => h.dependenciesOf hnext) _ _ hreach

/-- The load left `s'`, and what it added is reached from `provider`. -/
structure LoadedAt (s s' : Linker Path) (provider : Provider) : Prop where
  aligned : Aligned s'
  appends : Appends s s'
  inRange : s'.InRange provider
  reached : ∀ other, s'.InRange other → ¬s.InRange other → s'.Reaches provider other

/-- The load leaves the tables aligned, and has only appended, however it ends. -/
def Loads (call : LinkCall Path α) (provider : α → Provider) : Prop :=
  ∀ s, Aligned s → wp call (fun a s' => LoadedAt s s' (provider a)) (fun _ s' => Appends s s') s

/-! ### One step each -/

variable {objects : List (MappedObject Path)} {dlls : List DllProvider}

theorem appends_counts (s : Linker Path)
    (hobjects : objects.map MappedObject.uncounted = s.objects.map MappedObject.uncounted)
    (hdlls : dlls.map (·.name) = s.scope.dlls.map (·.name)) :
    Appends s { s with objects, scope := { s.scope with dlls } } :=
  ⟨⟨[], by simp [hobjects]⟩, ⟨[], by simp [hdlls]⟩, List.prefix_rfl, List.prefix_rfl, 0, by simp⟩

theorem Aligned.counts (h : Aligned s) (hobjects : objects.length = s.objects.length)
    (hdlls : dlls.length = s.scope.dlls.length) :
    Aligned { s with objects, scope := { s.scope with dlls } } := by
  have hin : ∀ provider : Provider,
      Linker.InRange { s with objects, scope := { s.scope with dlls } } provider ↔
        s.InRange provider := by
    intro provider
    cases provider <;> simp [Linker.InRange, hobjects, hdlls]
  exact ⟨h.dependencies.trans hobjects.symm, h.globals, h.nodup,
    fun provider => (h.providers provider).trans (hin provider).symm,
    fun providers hmem provider hprovider => (hin provider).mpr (h.recorded providers hmem provider hprovider)⟩

theorem loadedAt_counts (h : Aligned s)
    (hobjects : objects.map MappedObject.uncounted = s.objects.map MappedObject.uncounted)
    (hdlls : dlls.map (·.name) = s.scope.dlls.map (·.name)) (hin : s.InRange provider) :
    LoadedAt s { s with objects, scope := { s.scope with dlls } } provider := by
  have hlength : objects.length = s.objects.length := by
    simpa using congrArg List.length hobjects
  have hlength' : dlls.length = s.scope.dlls.length := by
    simpa using congrArg List.length hdlls
  have happends := appends_counts s hobjects hdlls
  refine ⟨h.counts hlength hlength', happends, happends.inRange hin, fun other hother hnew => ?_⟩
  cases other <;> simp_all [Linker.InRange]

theorem map_uncounted_modify (l : List (MappedObject Path)) (i : Nat)
    {f : MappedObject Path → MappedObject Path} (hf : ∀ object, (f object).uncounted = object.uncounted) :
    (l.modify i f).map MappedObject.uncounted = l.map MappedObject.uncounted :=
  List.ext_getElem? fun j => by
    rw [List.getElem?_map, List.getElem?_map, List.getElem?_modify]
    cases l[j]? with
    | none => rfl
    | some object => by_cases hij : i = j <;> simp [hij, hf]

variable {old dll : DllProvider}

theorem map_name_set (l : List DllProvider) {i : Nat} (hold : l[i]? = some old)
    (hname : dll.name = old.name) : (l.set i dll).map (·.name) = l.map (·.name) := by
  obtain ⟨hlt, rfl⟩ := List.getElem?_eq_some_iff.mp hold
  rw [List.map_set, hname]
  have hset := @List.set_getElem_self _ (l.map (·.name)) i (by simpa using hlt)
  simpa using hset

variable {id : Nat}

theorem loadedAt_retainObject (h : Aligned s) (hid : id < s.objects.length) :
    LoadedAt s (retainObject s id) (.elf id) :=
  loadedAt_counts h (map_uncounted_modify _ _ fun _ => rfl) rfl hid

theorem loadedAt_setDll (h : Aligned s) {index : Nat} (hold : s.scope.dlls[index]? = some old)
    (hname : dll.name = old.name) : LoadedAt s (setDll s index dll) (.dll index) :=
  loadedAt_counts h rfl (map_name_set _ hold hname) (List.getElem?_eq_some_iff.mp hold).1

theorem nodup_snoc {α : Type} {l : List α} {a : α} (h : l.Nodup) (ha : a ∉ l) :
    (l ++ [a]).Nodup := by
  rw [← List.concat_eq_append]
  exact List.Nodup.concat ha h

theorem loadedAt_pushDll (h : Aligned s) (soname : String) :
    LoadedAt s (pushDll s soname) (.dll s.scope.dlls.length) := by
  have hin : ∀ provider, (pushDll s soname).InRange provider ↔
      s.InRange provider ∨ provider = .dll s.scope.dlls.length := by
    intro provider
    cases provider with
    | elf id => simp [Linker.InRange, pushDll, Scope.pushProvider]
    | dll index =>
      simp only [Linker.InRange, pushDll, Scope.pushProvider, List.length_append,
        List.length_singleton, Provider.dll.injEq]
      omega
  have hnew : ¬s.InRange (.dll s.scope.dlls.length) := Nat.lt_irrefl _
  refine ⟨⟨h.dependencies, by simp [pushDll, Scope.pushProvider, h.globals],
    nodup_snoc h.nodup fun hmem => hnew ((h.providers _).mp hmem), fun provider => ?_,
    fun providers hmem provider hprovider =>
      (hin provider).mpr (.inl (h.recorded providers hmem provider hprovider))⟩,
    ⟨List.prefix_rfl, ?_, List.prefix_rfl, List.prefix_append _ _, 1, rfl⟩,
    (hin _).mpr (.inr rfl), fun other hother hold => ?_⟩
  · rw [hin, ← h.providers]
    simp [pushDll, Scope.pushProvider]
  · simp [pushDll, Scope.pushProvider]
  · rcases (hin other).mp hother with hother | rfl
    · exact absurd hother hold
    · exact .refl

theorem inRange_pushObject (s : Linker Path) (name : String) (path : Path) :
    (pushObject s name path).InRange provider ↔
      s.InRange provider ∨ provider = .elf s.objects.length := by
  cases provider with
  | dll index => simp [Linker.InRange, pushObject, Scope.pushProvider]
  | elf id =>
    simp only [Linker.InRange, pushObject, List.length_append, List.length_singleton,
      Provider.elf.injEq]
    omega

theorem Aligned.pushObject (h : Aligned s) (name : String) (path : Path) :
    Aligned (pushObject s name path) := by
  have hnew : ¬s.InRange (.elf s.objects.length) := Nat.lt_irrefl _
  refine ⟨by simp [Linker.pushObject, h.dependencies],
    by simp [Linker.pushObject, Scope.pushProvider, h.globals],
    nodup_snoc h.nodup fun hmem => hnew ((h.providers _).mp hmem), fun provider => ?_,
    fun providers hmem provider hprovider => ?_⟩
  · rw [inRange_pushObject, ← h.providers]
    simp [Linker.pushObject, Scope.pushProvider]
  · simp only [Linker.pushObject, List.mem_append, List.mem_singleton] at hmem
    rcases hmem with hmem | rfl
    · exact (inRange_pushObject s name path).mpr
        (.inl (h.recorded providers hmem provider hprovider))
    · cases hprovider

theorem appends_pushObject (s : Linker Path) (name : String) (path : Path) :
    Appends s (pushObject s name path) :=
  ⟨by simp [pushObject], List.prefix_rfl, List.prefix_append _ _, List.prefix_append _ _, 1, rfl⟩

theorem inRange_setDependencies (s : Linker Path) (id : Nat) (providers : List Provider) :
    (setDependencies s id providers).InRange provider ↔ s.InRange provider := by
  cases provider <;> simp [Linker.InRange, setDependencies]

theorem Aligned.setDependencies (h : Aligned s) {providers : List Provider}
    (hin : ∀ provider ∈ providers, s.InRange provider) :
    Aligned (setDependencies s id providers) := by
  refine ⟨by simp [Linker.setDependencies, h.dependencies], h.globals, h.nodup,
    fun provider => (h.providers provider).trans (inRange_setDependencies s id providers).symm,
    fun recorded hmem provider hprovider => (inRange_setDependencies s id providers).mpr ?_⟩
  rcases List.mem_or_eq_of_mem_set hmem with hold | rfl
  · exact h.recorded recorded hold provider hprovider
  · exact hin provider hprovider

theorem Appends.setDependencies (h : Appends s s') (haligned : Aligned s)
    (hid : s.objects.length ≤ id) (providers : List Provider) :
    Appends s (setDependencies s' id providers) := by
  refine ⟨?_, h.dlls, ?_, h.providers, h.globals⟩
  · rw [List.prefix_iff_eq_take]
    apply List.ext_getElem?
    intro i
    have hold := congrArg (·[i]?) (List.prefix_iff_eq_take.mp h.objects)
    simp only [List.getElem?_take, List.length_map, List.getElem?_map] at hold ⊢
    rw [hold]
    split
    · next hi =>
      have hne : id ≠ i := by omega
      simp only [Linker.setDependencies, List.getElem?_modify_ne _ _ hne]
    · rfl
  · obtain ⟨more, hmore⟩ := h.dependencies
    rw [Linker.setDependencies, ← hmore, List.set_append_right _ _ (by rw [haligned.dependencies]; exact hid)]
    exact List.prefix_append _ _

theorem reaches_setDependencies (hnone : s.dependenciesOf (.elf id) = [])
    (providers : List Provider) (hreach : s.Reaches provider other) :
    (setDependencies s id providers).Reaches provider other := by
  refine Relation.ReflTransGen.mono (fun a b hnext => ?_) _ _ hreach
  cases a with
  | dll index => exact hnext
  | elf i =>
    by_cases hi : id = i
    · subst hi
      rw [hnone] at hnext
      cases hnext
    · simpa [Linker.dependenciesOf, setDependencies, List.getD_eq_getElem?_getD,
        List.getElem?_set_ne hi] using hnext

end Frame

/-! ### The calls -/

section Calls

variable {world : World Path} {load : LoadImage Path}

omit [DecidableEq Path] in
theorem wp_ofWorld {onOk : α → Linker Path → Prop} {onError : LinkError Path → Linker Path → Prop}
    (outcome : Except (LinkError Path) α) (s : Linker Path)
    (hok : ∀ a, outcome = .ok a → onOk a s) (herror : ∀ e, outcome = .error e → onError e s) :
    wp (ofWorld outcome) onOk onError s := by
  cases outcome with
  | ok a => exact hok a rfl
  | error e => exact herror e rfl

omit [DecidableEq Path] in
theorem loads_ofWorld {β : Type} {outcome : Except (LinkError Path) α}
    {next : α → LinkCall Path β} {provider : β → Provider}
    (h : ∀ a, outcome = .ok a → Loads (next a) provider) :
    Loads (ofWorld outcome >>= next) provider := by
  intro s hs
  rw [wp_bind]
  exact wp_ofWorld outcome s (fun a ha => h a ha s hs) fun _ _ => Appends.refl s

theorem loadRegistered_loads (image : ProviderImage) :
    Loads (loadRegistered image : LinkCall Path Nat) .dll := by
  intro s hs
  unfold loadRegistered
  rw [wp_bind, wp_get]
  cases hfind : s.scope.dlls.findIdx? (·.name = image.soname) with
  | none =>
    simp only [wp_bind, wp_set, wp_pure]
    exact loadedAt_pushDll hs image.soname
  | some index =>
    simp only [wp_bind, wp_require]
    refine ⟨fun _ => Appends.refl s, fun dll hdll => ?_⟩
    refine wp_ofWorld _ s (fun dll' hadd => ?_) fun _ _ => Appends.refl s
    simp only [wp_bind, wp_set, wp_pure]
    apply loadedAt_setDll hs hdll
    unfold DllProvider.addReference at hadd
    split at hadd
    · cases hadd
      rfl
    · cases hadd

theorem Loads.map {α : Type} {call : LinkCall Path α} {provider : α → Provider}
    (h : Loads call provider) : Loads (do let a ← call; pure (provider a)) id := by
  intro s hs
  simp only [wp_bind, wp_pure]
  exact h s hs

theorem loadCandidate_loads (world : World Path)
    (hload : ∀ path name bytes, Loads (load path name bytes) .elf)
    (path : Path) (name : String) : Loads (loadCandidate world load path name) id := by
  unfold loadCandidate
  apply loads_ofWorld
  intro found _
  cases found with
  | some image => exact (loadRegistered_loads image).map
  | none =>
    apply loads_ofWorld
    intro found _
    cases found with
    | some image => exact (loadRegistered_loads image).map
    | none =>
      apply loads_ofWorld
      intro bytes _
      exact (hload path (some name) (some bytes)).map

theorem satisfy_loads (hload : ∀ path name bytes, Loads (load path name bytes) .elf)
    (directories : List Path) (requestedBy needed : String) :
    Loads (satisfy world load directories requestedBy needed) id := by
  unfold satisfy
  apply loads_ofWorld
  intro found _
  cases found with
  | some image => exact (loadRegistered_loads image).map
  | none =>
    intro s hs
    simp only [wp_bind, wp_get]
    cases hfind : s.objects.findIdx? (·.answersTo world needed) with
    | some existing =>
      simp only [wp_bind, wp_set, wp_pure]
      obtain ⟨hlt, -, -⟩ := List.findIdx?_eq_some_iff_getElem.mp hfind
      exact loadedAt_retainObject hs hlt
    | none =>
      cases search world directories needed with
      | some resolved => exact loadCandidate_loads world hload resolved needed s hs
      | none => exact Appends.refl s

/-- The providers of a list of entries, one after another. -/
structure LoadedAll (s s' : Linker Path) (providers : List Provider) : Prop where
  aligned : Aligned s'
  appends : Appends s s'
  inRange : ∀ provider ∈ providers, s'.InRange provider
  reached : ∀ other, s'.InRange other → ¬s.InRange other →
    ∃ provider ∈ providers, s'.Reaches provider other

theorem mapM_loads {f : String → LinkCall Path Provider} (hf : ∀ name, Loads (f name) id)
    (names : List String) {s : Linker Path} (hs : Aligned s) :
    wp (names.mapM f) (fun providers s' => LoadedAll s s' providers) (fun _ s' => Appends s s')
      s := by
  induction names generalizing s with
  | nil =>
    rw [List.mapM_nil, wp_pure]
    exact ⟨hs, Appends.refl s, fun _ h => (List.not_mem_nil h).elim,
      fun _ hin hnew => absurd hin hnew⟩
  | cons name names ih =>
    rw [List.mapM_cons, wp_bind]
    refine wp_mono (hf name s hs) (fun provider s₁ h₁ => ?_) fun _ _ he => he
    rw [wp_bind]
    refine wp_mono (ih h₁.aligned) (fun providers s₂ h₂ => ?_) fun _ s₂ he =>
      h₁.appends.trans he
    rw [wp_pure]
    refine ⟨h₂.aligned, h₁.appends.trans h₂.appends, fun other hother => ?_,
      fun other hin hnew => ?_⟩
    · rcases List.mem_cons.mp hother with rfl | hother
      · exact h₂.appends.inRange h₁.inRange
      · exact h₂.inRange other hother
    · by_cases hmid : s₁.InRange other
      · exact ⟨provider, List.mem_cons_self, h₂.appends.reaches (h₁.reached other hmid hnew)⟩
      · obtain ⟨first, hfirst, hreach⟩ := h₂.reached other hin hmid
        exact ⟨first, List.mem_cons_of_mem _ hfirst, hreach⟩

theorem LoadedAll.loadedAt {s s' : Linker Path} {name : String} {path : Path}
    {providers : List Provider} (hs : Aligned s)
    (h : LoadedAll (pushObject s name path) s' providers) :
    LoadedAt s (setDependencies s' s.objects.length providers) (.elf s.objects.length) := by
  have hlast : (pushObject s name path).InRange (.elf s.objects.length) :=
    (inRange_pushObject s name path).mpr (.inr rfl)
  have hnone : s'.dependenciesOf (.elf s.objects.length) = [] := by
    obtain ⟨more, hmore⟩ := h.appends.dependencies
    simp [Linker.dependenciesOf, ← hmore, pushObject, ← hs.dependencies]
  have hown : (setDependencies s' s.objects.length providers).dependenciesOf
      (.elf s.objects.length) = providers := by
    have hlt : s.objects.length < s'.providerDependencies.length := by
      rw [h.aligned.dependencies]
      exact h.appends.inRange hlast
    simp [Linker.dependenciesOf, Linker.setDependencies, List.getD_eq_getElem?_getD, hlt]
  refine ⟨h.aligned.setDependencies h.inRange,
    ((appends_pushObject s name path).trans h.appends).setDependencies hs le_rfl providers,
    (inRange_setDependencies _ _ _).mpr (h.appends.inRange hlast), fun other hin hnew => ?_⟩
  rw [inRange_setDependencies] at hin
  by_cases hpushed : (pushObject s name path).InRange other
  · rcases (inRange_pushObject s name path).mp hpushed with hold | rfl
    · exact absurd hold hnew
    · exact .refl
  obtain ⟨provider, hmem, hreach⟩ := h.reached other hin hpushed
  have hfirst : provider ∈ (setDependencies s' s.objects.length providers).dependenciesOf
      (.elf s.objects.length) := by
    rw [hown]
    exact hmem
  exact .head hfirst (reaches_setDependencies hnone providers hreach)

theorem loadGraphImage_loads (world : World Path) (fuel : Nat) (path : Path)
    (requestedName : Option String) (image : Option (List UInt8)) :
    Loads (loadGraphImage world fuel path requestedName image) .elf := by
  induction fuel generalizing path requestedName image with
  | zero => exact fun s _ => Appends.refl s
  | succ fuel ih =>
    intro s hs
    unfold loadGraphImage
    simp only [wp_bind, wp_get]
    cases hfind : s.objects.findIdx? (·.path = world.canonicalize path) with
    | some existing =>
      simp only [wp_bind, wp_set, wp_pure]
      obtain ⟨hlt, -, -⟩ := List.findIdx?_eq_some_iff_getElem.mp hfind
      exact loadedAt_retainObject hs hlt
    | none =>
      have hread : ∀ bytes, wp (do
            let image ← ofWorld (world.mapImage (world.canonicalize path) bytes)
            set (pushObject s (resolveName world image (world.canonicalize path)
              requestedName) (world.canonicalize path))
            let providers ← image.needed.mapM (satisfy world (loadGraphImage world fuel)
              (directoriesOf world image (world.canonicalize path))
              (resolveName world image (world.canonicalize path) requestedName))
            modify fun linker => setDependencies linker s.objects.length providers
            pure s.objects.length)
          (fun id s' => LoadedAt s s' (.elf id)) (fun _ s' => Appends s s') s := by
        intro bytes
        rw [wp_bind]
        refine wp_ofWorld _ s (fun image _ => ?_) fun _ _ => Appends.refl s
        simp only [wp_bind, wp_set]
        have hpush := appends_pushObject s
          (resolveName world image (world.canonicalize path) requestedName)
          (world.canonicalize path)
        refine wp_mono (mapM_loads (satisfy_loads ih _ _) image.needed (hs.pushObject _ _))
          (fun providers s' h => ?_) fun _ s' he => hpush.trans he
        exact h.loadedAt hs
      cases image with
      | some bytes => exact hread bytes
      | none =>
        simp only [wp_bind]
        exact wp_ofWorld _ s (fun bytes _ => hread bytes) fun _ _ => Appends.refl s

end Calls

/-! ### Going back -/

theorem recount {α κ : Type} (bare : α → κ) (count : α → Nat) (put : α → Nat → α)
    (hput : ∀ a b, bare a = bare b → put a (count b) = b) {l m : List α}
    (h : l.map bare <+: m.map bare) : (m.take l.length).zipWith put (l.map count) = l := by
  induction l generalizing m with
  | nil => simp
  | cons b l ih =>
    cases m with
    | nil => simp at h
    | cons a m =>
      rw [List.map_cons, List.map_cons, List.cons_prefix_cons] at h
      simp [hput a b h.1.symm, ih h.2]

omit [DecidableEq Path] in
theorem restore_capture {s : Runtime Path} {linker : Linker Path} (haligned : Aligned s.linker)
    (h : Appends s.linker linker) (scope : Scope) (hdlls : scope.dlls = linker.scope.dlls) :
    (Checkpoint.capture s).restore { s with linker := { linker with scope } } = s := by
  have hobjects := recount MappedObject.uncounted (·.references)
    (fun object references => { object with references })
    (fun _ b hab => congrArg (fun object => { object with references := b.references }) hab)
    h.objects
  have hdll := recount DllProvider.name (·.references) (fun dll references => { dll with references })
    (fun _ b hab => congrArg (fun name => DllProvider.mk name b.references) hab) h.dlls
  have hdependencies : linker.providerDependencies.take s.linker.objects.length =
      s.linker.providerDependencies := by
    rw [← haligned.dependencies]
    exact (List.prefix_iff_eq_take.mp h.dependencies).symm
  simp only [Checkpoint.restore, Checkpoint.capture, List.length_map, hobjects, hdlls, hdll,
    hdependencies]

end Kinakaze.Linker
