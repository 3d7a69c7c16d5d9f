import Kinakaze.Library.StatefulCall
import Mathlib.Algebra.Ring.Int.Defs
import Mathlib.Algebra.Ring.Nat

/-!
# The state of the dynamic linker

What loading and symbol lookup read and write: the mapped objects, the bound
facades, and the scope that orders both.  The file system and the registry of
facades are the `World` the linker runs in; paths are left to it.
-/

namespace Kinakaze.Linker

open Library

/-- One position in the process-wide ELF/facade symbol search order. -/
inductive Provider
  | elf (id : Nat)
  | dll (index : Nat)
  deriving DecidableEq

/-- The object id, when the provider is a mapped object. -/
def Provider.object? : Provider → Option Nat
  | .elf id => some id
  | .dll _ => none

inductive LinkError (Path : Type)
  | missingDependency (name requestedBy : String) (searched : List Path)
  | invalidProvider (text : String)
  | invalidImage (text : String)
  | addressOverflow
  | invalidHandle
  /-- The recursion was cut off: the model's own bound, which no finite graph reaches. -/
  | tooDeep
  deriving DecidableEq

/-- What a facade image declares about itself. -/
structure ProviderImage where
  soname : String

/-- What loading reads of an ELF image: `DT_SONAME`, `DT_NEEDED`, and the raw
`DT_RUNPATH` or `DT_RPATH`. -/
structure ElfImage where
  soname : Option String
  needed : List String
  searchPath : Option String

/-- A mapped object, as loading keeps it. -/
structure MappedObject (Path : Type) where
  name : String
  path : Path
  dependencies : List Nat
  references : Nat

/-- A bound facade. -/
structure DllProvider where
  name : String
  references : Nat
  deriving DecidableEq

/-- The objects and facades used for symbol resolution, in search order. -/
structure Scope where
  order : List Nat
  dlls : List DllProvider
  providers : List Provider
  globals : List Bool

structure Linker (Path : Type) where
  objects : List (MappedObject Path)
  providerDependencies : List (List Provider)
  scope : Scope

/-- `Linker::new`: nothing loaded. -/
def Linker.new (Path : Type) : Linker Path where
  objects := []
  providerDependencies := []
  scope := ⟨[], [], [], []⟩

/-- The registry of facades, the file system, and the search paths of the process. -/
structure World (Path : Type) where
  /-- `ProviderRegistry::get`. -/
  registered : String → Except (LinkError Path) (Option ProviderImage)
  /-- `ProviderRegistry::by_path`. -/
  registeredAt : Path → Except (LinkError Path) (Option ProviderImage)
  canonicalize : Path → Path
  /-- The directory of a path. -/
  parent : Path → Path
  join : Path → String → Path
  /-- The file name, where it is text. -/
  fileName : Path → Option String
  /-- The file name for display. -/
  displayName : Path → String
  /-- `read_elf_candidate`. -/
  readElf : Path → Except (LinkError Path) (List UInt8)
  /-- Reject an unbound facade, map the object, and read its dynamic section. -/
  mapImage : Path → List UInt8 → Except (LinkError Path) ElfImage
  /-- `resolve_candidate`: the file a candidate path leads to. -/
  resolveCandidate : Path → Option Path
  /-- `expand_search_path`. -/
  expandSearchPath : String → Path → List Path
  libraryPaths : List Path
  extra : List Path
  systemPaths : List Path

/-- A counter of the machine's word. -/
def usize : Nat := 2 ^ 64

/-- A call on the linker. -/
abbrev LinkCall (Path α : Type) := Call (LinkError Path) (Linker Path) α

/-- The outcome of something that reads only the world. -/
def ofWorld {Path α : Type} (outcome : Except (LinkError Path) α) : LinkCall Path α :=
  match outcome with
  | .ok a => pure a
  | .error e => throw e

@[simp] theorem exec_ofWorld_ok {Path α : Type} (a : α) (s : Linker Path) :
    exec (ofWorld (.ok a)) s = (.ok a, s) := rfl

/-- `Scope::push_provider`: startup objects are global. -/
def Scope.pushProvider (scope : Scope) (provider : Provider) : Scope :=
  { scope with
    providers := scope.providers ++ [provider]
    globals := scope.globals ++ [true] }

def Scope.setGlobal (scope : Scope) (provider : Provider) (global : Bool) : Scope :=
  { scope with
    globals := scope.globals.mapIdx fun index old =>
      if scope.providers[index]? = some provider then global else old }

/-- One more reference to a facade. -/
def DllProvider.retain (dll : DllProvider) : DllProvider :=
  { dll with references := dll.references + 1 }

@[simp] theorem DllProvider.retain_name (dll : DllProvider) : dll.retain.name = dll.name := rfl

@[simp] theorem DllProvider.retain_references (dll : DllProvider) :
    dll.retain.references = dll.references + 1 := rfl

def DllProvider.addReference {Path : Type} (dll : DllProvider) :
    Except (LinkError Path) DllProvider :=
  if dll.references + 1 < usize then .ok dll.retain
  else .error .addressOverflow

/-- One more reference to an object; the count is a machine word. -/
def MappedObject.retain {Path : Type} (object : MappedObject Path) : MappedObject Path :=
  { object with references := (object.references + 1) % usize }

end Kinakaze.Linker

/-!
## Loading a graph of objects

`load_graph` maps an object and, for each of its `DT_NEEDED` entries in turn,
whatever satisfies the entry.  The source recurses between `load_graph_image`,
`satisfy` and `load_candidate`; here the two helpers take the recursive call as
an argument and the recursion is on a bound `fuel`.
-/

namespace Kinakaze.Linker

open Library

variable {Path : Type} [DecidableEq Path]

/-- `resolve_name`: `DT_SONAME`, else the requested name, else the file's name. -/
def resolveName (world : World Path) (image : ElfImage) (path : Path)
    (requested : Option String) : String :=
  (image.soname <|> requested).getD (world.displayName path)

/-- The facade at `index` with other counts. -/
def setDll (linker : Linker Path) (index : Nat) (dll : DllProvider) : Linker Path :=
  { linker with scope := { linker.scope with dlls := linker.scope.dlls.set index dll } }

/-- A facade bound for the first time. -/
def pushDll (linker : Linker Path) (soname : String) : Linker Path :=
  let scope := { linker.scope with dlls := linker.scope.dlls ++ [DllProvider.mk soname 1] }
  { linker with scope := scope.pushProvider (.dll linker.scope.dlls.length) }

/-- `load_registered`: one more reference to a bound facade, or bind it. -/
def loadRegistered (image : ProviderImage) : LinkCall Path Nat := do
  let linker ← get
  match linker.scope.dlls.findIdx? (·.name = image.soname) with
  | some index =>
    let dll ← require linker.scope.dlls[index]? .invalidHandle
    let dll ← ofWorld dll.addReference
    set (setDll linker index dll)
    pure index
  | none =>
    set (pushDll linker image.soname)
    pure linker.scope.dlls.length

/-- One more reference to the object at `index`. -/
def retainObject (linker : Linker Path) (index : Nat) : Linker Path :=
  { linker with objects := linker.objects.modify index MappedObject.retain }

/-- The recursive call: the path, the requested name, and the file if it is read already. -/
abbrev LoadImage (Path : Type) := Path → Option String → Option (List UInt8) → LinkCall Path Nat

/-- `load_candidate`: a file that is a registered facade binds to it. -/
def loadCandidate (world : World Path) (load : LoadImage Path) (path : Path) (name : String) :
    LinkCall Path Provider := do
  let image ← ofWorld (world.registeredAt path)
  let image ← match image with
    | some image => pure (some image)
    | none => ofWorld (world.registered name)
  match image with
  | some image => do
    let index ← loadRegistered image
    pure (.dll index)
  | none => do
    let bytes ← ofWorld (world.readElf path)
    let id ← load path (some name) (some bytes)
    pure (.elf id)

/-- The directories searched for a dependency, in order. -/
def searchDirectories (world : World Path) (objectDirectory : Path) (runpath : List Path) :
    List Path :=
  world.libraryPaths ++ runpath ++ world.extra ++
    [world.join objectDirectory "../lib", world.join objectDirectory "../usr/lib"] ++
    world.systemPaths ++ [objectDirectory]

/-- The first candidate that leads to a file. -/
def search (world : World Path) (directories : List Path) (needed : String) : Option Path :=
  directories.findSome? fun directory => world.resolveCandidate (world.join directory needed)

/-- An object answers to its name and to the name of its file. -/
def MappedObject.answersTo (world : World Path) (object : MappedObject Path) (needed : String) :
    Bool :=
  object.name = needed || world.fileName object.path = some needed

/-- `satisfy`: find and load whatever satisfies one `DT_NEEDED` entry. -/
def satisfy (world : World Path) (load : LoadImage Path) (directories : List Path)
    (requestedBy needed : String) : LinkCall Path Provider := do
  match ← ofWorld (world.registered needed) with
  | some image => do
    let index ← loadRegistered image
    pure (.dll index)
  | none => do
    let linker ← get
    match linker.objects.findIdx? (·.answersTo world needed) with
    | some existing => do
      set (retainObject linker existing)
      pure (.elf existing)
    | none =>
      match search world directories needed with
      | some resolved => loadCandidate world load resolved needed
      | none =>
        throw (.missingDependency needed requestedBy
          (directories.map fun directory => world.join directory needed))

/-- The object is appended before its dependencies are looked at. -/
def pushObject (linker : Linker Path) (name : String) (path : Path) : Linker Path :=
  let id := linker.objects.length
  let scope := { linker.scope with order := linker.scope.order ++ [id] }
  { linker with
    objects := linker.objects ++ [⟨name, path, [], 1⟩]
    providerDependencies := linker.providerDependencies ++ [[]]
    scope := scope.pushProvider (.elf id) }

/-- The dependencies of the object at `id`, once all of them are satisfied. -/
def setDependencies (linker : Linker Path) (id : Nat) (providers : List Provider) : Linker Path :=
  { linker with
    objects := linker.objects.modify id fun object =>
      { object with dependencies := providers.filterMap Provider.object? }
    providerDependencies := linker.providerDependencies.set id providers }

/-- The runpath entries of an object, expanded against its directory. -/
def runpathOf (world : World Path) (image : ElfImage) (objectDirectory : Path) : List Path :=
  match image.searchPath with
  | some raw => world.expandSearchPath raw objectDirectory
  | none => []

/-- Where the dependencies of the object at a canonical path are searched. -/
def directoriesOf (world : World Path) (image : ElfImage) (canonical : Path) : List Path :=
  searchDirectories world (world.parent canonical) (runpathOf world image (world.parent canonical))

def loadGraphImage (world : World Path) : Nat → LoadImage Path
  | 0, _, _, _ => throw .tooDeep
  | fuel + 1, path, requestedName, image => do
    let canonical := world.canonicalize path
    let linker ← get
    match linker.objects.findIdx? (·.path = canonical) with
    | some existing => do
      -- A second request is a new reference.
      set (retainObject linker existing)
      pure existing
    | none => do
      let bytes ← match image with
        | some bytes => pure bytes
        | none => ofWorld (world.readElf canonical)
      let image ← ofWorld (world.mapImage canonical bytes)
      let id := linker.objects.length
      let name := resolveName world image canonical requestedName
      set (pushObject linker name canonical)
      let providers ← image.needed.mapM
        (satisfy world (loadGraphImage world fuel) (directoriesOf world image canonical) name)
      modify fun linker => setDependencies linker id providers
      pure id

def loadGraph (world : World Path) (fuel : Nat) (path : Path) (requestedName : Option String) :
    LinkCall Path Nat :=
  loadGraphImage world fuel path requestedName none

end Kinakaze.Linker
