import Kinakaze.Library.Traversal
import Kinakaze.Linker.State

/-!
# Opening and closing at run time

`open_runtime` finds or loads an image, links what is new and runs its
constructors, and hands out a handle; a `Checkpoint` taken before loading is
what a failure goes back to.  Relocation and constructors are guest code and
machine work: their outcomes belong to the world of the call.
-/

namespace Kinakaze.Linker

open Library

variable {Path : Type} [DecidableEq Path]

inductive OpenError (Path : Type)
  | invalidOpenFlags (flags : BitVec 32)
  | objectNotLoaded (path : Path)
  | link (error : LinkError Path)
  deriving DecidableEq

/-- What a handle of `dlopen` names. -/
inductive RuntimeHandle
  | main
  | elf (id : Nat)
  | dll (index : Nat)
  deriving DecidableEq

/-- The providers a search through the handle starts from. -/
def RuntimeHandle.roots : RuntimeHandle → List Provider
  | .main => []
  | .elf id => [.elf id]
  | .dll index => [.dll index]

def RuntimeHandle.ofProvider : Provider → RuntimeHandle
  | .elf id => .elf id
  | .dll index => .dll index

@[simp] theorem RuntimeHandle.roots_ofProvider (provider : Provider) :
    (RuntimeHandle.ofProvider provider).roots = [provider] := by
  cases provider <;> rfl

/-- The linker with what calls at run time add to it. -/
structure Runtime (Path : Type) where
  linker : Linker Path
  /-- The objects and facades whose `nodelete` is set. -/
  nodelete : List Provider
  /-- The objects whose `initialized` is set. -/
  initialized : List Nat
  initializationOrder : List Nat
  handles : List (Nat × RuntimeHandle)
  nextHandle : Nat

/-- What a call at run time finds outside the linker's tables. -/
structure RuntimeWorld (Path : Type) extends World Path where
  /-- `ProviderRegistry::registered_path`. -/
  registeredPath : Path → String → Option Path
  /-- The path has no directory. -/
  bare : Path → Bool
  text : Path → String
  /-- The image a facade of this name was bound from. -/
  facadePath : String → Path
  isExecutable : Path → Bool
  /-- `link_from_preferred` up to the initialization order. -/
  relocate : Linker Path → Nat → List Provider → Except (LinkError Path) Unit
  /-- `run_object_initializers`. -/
  construct : Nat → Except (LinkError Path) Unit

def rtldLazy : BitVec 32 := 0x1
def rtldNow : BitVec 32 := 0x2
def rtldNoload : BitVec 32 := 0x4
def rtldDeepbind : BitVec 32 := 0x8
def rtldGlobal : BitVec 32 := 0x100
def rtldNodelete : BitVec 32 := 0x1000

def rtldKnownFlags : BitVec 32 :=
  rtldLazy ||| rtldNow ||| rtldNoload ||| rtldDeepbind ||| rtldGlobal ||| rtldNodelete

/-- `flag` is among `flags`. -/
def hasFlag (flags flag : BitVec 32) : Bool := flags &&& flag ≠ 0

/-- Exactly one binding, and nothing unknown. -/
def validFlags (flags : BitVec 32) : Bool :=
  let binding := flags &&& (rtldLazy ||| rtldNow)
  (binding = rtldLazy || binding = rtldNow) && flags &&& ~~~rtldKnownFlags = 0

/-! ## Dependencies -/

/-- The recorded dependencies of a provider; a facade has none. -/
def Linker.dependenciesOf (linker : Linker Path) : Provider → List Provider
  | .elf id => linker.providerDependencies.getD id []
  | .dll _ => []

/-- `runtime_provider_closure`; the queue takes each recorded dependency once at most. -/
def runtimeProviderClosure (linker : Linker Path) (target : RuntimeHandle) : List Provider :=
  closure linker.dependenciesOf
    ((linker.scope.providers.map fun provider => (linker.dependenciesOf provider).length).sum + 1)
    [] target.roots

def promoteRuntimeTarget (linker : Linker Path) (target : RuntimeHandle) : Linker Path :=
  { linker with
    scope := (runtimeProviderClosure linker target).foldl (·.setGlobal · true) linker.scope }

/-- Make one provider of an older group visible, and note where that changed something. -/
def publishProvider (firstNew : Nat) (state : Scope × List Nat) (provider : Provider) :
    Scope × List Nat :=
  match state.1.providers.findIdx? (· = provider) with
  | some index =>
    if index < firstNew ∧ state.1.globals[index]? = some false then
      ({ state.1 with globals := state.1.globals.set index true }, state.2 ++ [index])
    else state
  | none => state

def publishExistingDependencies (linker : Linker Path) (target : RuntimeHandle)
    (firstNew : Nat) : Linker Path × List Nat :=
  let (scope, changed) :=
    (runtimeProviderClosure linker target).foldl (publishProvider firstNew) (linker.scope, [])
  ({ linker with scope }, changed)

/-- `globals[index] = false` for every index given. -/
def unpublish (linker : Linker Path) (indices : List Nat) : Linker Path :=
  { linker with scope := { linker.scope with
    globals := indices.foldl (·.set · false) linker.scope.globals } }

/-- `globals[first..]` are all cleared. -/
def hideFrom (linker : Linker Path) (first : Nat) : Linker Path :=
  { linker with scope := { linker.scope with
    globals := linker.scope.globals.mapIdx fun index old => if first ≤ index then false else old } }

/-! ## Constructors -/

/-- `visit_for_initialization`: post-order; a chain of new objects is no longer than the table. -/
def visitForInitialization (linker : Linker Path) :
    Nat → List Nat × List Nat → Nat → List Nat × List Nat
  | 0, state, _ => state
  | fuel + 1, (visited, order), id =>
    if id ∈ visited then (visited, order)
    else
      let dependencies := (linker.objects[id]?.map (·.dependencies)).getD []
      let (visited, order) :=
        dependencies.foldl (visitForInitialization linker fuel) (id :: visited, order)
      (visited, order ++ [id])

def computeInitializationOrder (linker : Linker Path) : List Nat :=
  (linker.scope.order.foldl (visitForInitialization linker (linker.objects.length + 1)) ([], [])).2

/-- The object at `id` is an executable, whose constructors libc runs. -/
def Runtime.isExecutable (world : RuntimeWorld Path) (s : Runtime Path) (id : Nat) : Bool :=
  match s.linker.objects[id]? with
  | some object => world.isExecutable object.path
  | none => false

/-- `run_initializers`, over the initialization order. -/
def runInitializers (world : RuntimeWorld Path) :
    List Nat → Runtime Path → Except (LinkError Path) Unit × Runtime Path
  | [], s => (.ok (), s)
  | id :: rest, s =>
    if s.isExecutable world id ∨ id ∈ s.initialized then runInitializers world rest s
    else
      let s := { s with initialized := id :: s.initialized }
      match world.construct id with
      | .error e => (.error e, s)
      | .ok () => runInitializers world rest s

/-! ## Going back -/

structure Checkpoint where
  objectReferences : List Nat
  dllReferences : List Nat
  order : List Nat
  providers : List Provider
  globals : List Bool
  initializationOrder : List Nat

def Checkpoint.capture (s : Runtime Path) : Checkpoint where
  objectReferences := s.linker.objects.map (·.references)
  dllReferences := s.linker.scope.dlls.map (·.references)
  order := s.linker.scope.order
  providers := s.linker.scope.providers
  globals := s.linker.scope.globals
  initializationOrder := s.initializationOrder

def Checkpoint.restore (saved : Checkpoint) (s : Runtime Path) : Runtime Path :=
  { s with
    linker :=
      { objects := (s.linker.objects.take saved.objectReferences.length).zipWith
          (fun object references => { object with references }) saved.objectReferences
        providerDependencies :=
          s.linker.providerDependencies.take saved.objectReferences.length
        scope :=
          { order := saved.order
            dlls := (s.linker.scope.dlls.take saved.dllReferences.length).zipWith
              (fun dll references => { dll with references }) saved.dllReferences
            providers := saved.providers
            globals := saved.globals } }
    initializationOrder := saved.initializationOrder }

/-! ## Targets -/

def findRuntimeCandidate (world : RuntimeWorld Path) (linker : Linker Path) (path : Path) :
    Except (LinkError Path) Path :=
  let fileName := (world.fileName path).getD ""
  match world.registeredPath path fileName with
  | some path => .ok path
  | none =>
    -- A bare name may be resident already, through another object's search path.
    let resident := if world.bare path then
      linker.objects.find? fun object =>
        object.name = fileName || world.fileName object.path = some (world.text path)
      else none
    match resident with
    | some object => .ok object.path
    | none =>
      match world.resolveCandidate path with
      | some resolved => .ok resolved
      | none =>
        if !world.bare path then
          .error (.missingDependency (world.text path) "dlopen" [path])
        else
          let directories := world.libraryPaths ++ world.extra ++ world.systemPaths
          match search world.toWorld directories (world.text path) with
          | some resolved => .ok resolved
          | none =>
            .error (.missingDependency (world.text path) "dlopen"
              (path :: directories.map (world.join · (world.text path))))

/-- `is_loaded`, for the facade at `index`. -/
def Runtime.isLoaded (s : Runtime Path) (index : Nat) (dll : DllProvider) : Bool :=
  dll.references ≠ 0 || .dll index ∈ s.nodelete

def loadedRuntimeTarget (world : RuntimeWorld Path) (s : Runtime Path) (path : Path) :
    Option RuntimeHandle :=
  let canonical := world.canonicalize path
  match s.linker.objects.findIdx? (·.path = canonical) with
  | some id => some (.elf id)
  | none =>
    let dlls := s.linker.scope.dlls
    (dlls.zipIdx.find? fun entry =>
      world.facadePath entry.1.name = canonical && s.isLoaded entry.2 entry.1).map
        fun entry => .dll entry.2

/-- One more reference to an object, where the count stays at its bound. -/
def MappedObject.retainSaturating (object : MappedObject Path) : MappedObject Path :=
  { object with references := min (object.references + 1) (usize - 1) }

def retainRuntimeTarget (linker : Linker Path) :
    RuntimeHandle → Except (LinkError Path) (Linker Path)
  | .main => .ok linker
  | .elf id =>
    if id < linker.objects.length then
      .ok { linker with objects := linker.objects.modify id MappedObject.retainSaturating }
    else .error .invalidHandle
  | .dll index =>
    match linker.scope.dlls[index]? with
    | some dll => do
      let dll ← dll.addReference
      pure (setDll linker index dll)
    | none => .error .invalidHandle

def markRuntimeNodelete (s : Runtime Path) : RuntimeHandle → Except (LinkError Path) (Runtime Path)
  | .main => .ok s
  | .elf id =>
    if id < s.linker.objects.length then .ok { s with nodelete := .elf id :: s.nodelete }
    else .error .invalidHandle
  | .dll index =>
    if index < s.linker.scope.dlls.length then
      .ok { s with nodelete := .dll index :: s.nodelete }
    else .error .invalidHandle

/-- `allocate_runtime_handle`: a number in use is overwritten and passed over. -/
def allocateRuntimeHandle (target : RuntimeHandle) :
    Nat → Runtime Path → Except (OpenError Path) Nat × Runtime Path
  | 0, s => (.error (.link .tooDeep), s)
  | fuel + 1, s =>
    let handle := s.nextHandle
    let s := { s with nextHandle := (handle + 0x10) % usize }
    if handle = 0 then allocateRuntimeHandle target fuel s
    else
      let inUse := handle ∈ s.handles.map Prod.fst
      let s := { s with handles := (handle, target) :: s.handles.filter (·.1 ≠ handle) }
      if inUse then allocateRuntimeHandle target fuel s else (.ok handle, s)

/-! ## The two calls -/

/-- Link a group that was just loaded into `linker`, and run its constructors. -/
def linkTarget (world : RuntimeWorld Path) (flags : BitVec 32) (target : RuntimeHandle)
    (s : Runtime Path) (linker : Linker Path) :
    Except (OpenError Path) RuntimeHandle × Runtime Path :=
  let firstProvider := s.linker.scope.providers.length
  -- The group may use a provider that an earlier local group keeps to itself.
  let (published, temporary) := publishExistingDependencies linker target firstProvider
  let preferred := if hasFlag flags rtldDeepbind then runtimeProviderClosure published target
    else []
  let linked := world.relocate published s.linker.objects.length preferred
  let linker := if hasFlag flags rtldGlobal then published else unpublish published temporary
  match linked with
  | .error e => (.error (.link e), (Checkpoint.capture s).restore { s with linker })
  | .ok () =>
    let linker := if hasFlag flags rtldGlobal then linker else hideFrom linker firstProvider
    let order := computeInitializationOrder linker
    match runInitializers world order { s with linker, initializationOrder := order } with
    -- The checkpoint is not restored here.
    | (.error e, s) => (.error (.link e), s)
    | (.ok (), s) => (.ok target, s)

/-- Load the file at `candidate`, or find it loaded, and link what is new. -/
def loadTarget (world : RuntimeWorld Path) (fuel : Nat) (candidate : Path) (requested : String)
    (flags : BitVec 32) (s : Runtime Path) :
    Except (OpenError Path) RuntimeHandle × Runtime Path :=
  match exec (loadCandidate world.toWorld (loadGraphImage world.toWorld fuel) candidate requested)
    s.linker with
  | (.error e, linker) =>
    (.error (.link e), (Checkpoint.capture s).restore { s with linker })
  | (.ok provider, linker) =>
    let target := RuntimeHandle.ofProvider provider
    if linker.objects.length ≠ s.linker.objects.length then
      linkTarget world flags target s linker
    else
      -- A facade has no relocation phase.
      let linker := if hasFlag flags rtldGlobal then linker
        else hideFrom linker s.linker.scope.providers.length
      (.ok target, { s with linker })

/-- The target of a path: the resident one for `RTLD_NOLOAD`, else a loaded one. -/
def openTarget (world : RuntimeWorld Path) (fuel : Nat) (path : Path) (flags : BitVec 32)
    (s : Runtime Path) : Except (OpenError Path) RuntimeHandle × Runtime Path :=
  match findRuntimeCandidate world s.linker path with
  | .error e => (.error (.link e), s)
  | .ok candidate =>
    if hasFlag flags rtldNoload then
      match loadedRuntimeTarget world s candidate with
      | none => (.error (.objectNotLoaded candidate), s)
      | some target =>
        match retainRuntimeTarget s.linker target with
        | .error e => (.error (.link e), s)
        | .ok linker => (.ok target, { s with linker })
    else loadTarget world fuel candidate (world.displayName path) flags s

/-- Apply `RTLD_NODELETE` and `RTLD_GLOBAL`, and hand out a handle. -/
def publishTarget (flags : BitVec 32) (target : RuntimeHandle) (s : Runtime Path) :
    Except (OpenError Path) Nat × Runtime Path :=
  match if hasFlag flags rtldNodelete then markRuntimeNodelete s target else .ok s with
  | .error e => (.error (.link e), s)
  | .ok s =>
    let s := if hasFlag flags rtldGlobal then
      { s with linker := promoteRuntimeTarget s.linker target } else s
    allocateRuntimeHandle target (s.handles.length + 2) s

def openRuntime (world : RuntimeWorld Path) (fuel : Nat) (path : Option Path) (flags : BitVec 32)
    (s : Runtime Path) : Except (OpenError Path) Nat × Runtime Path :=
  if !validFlags flags then (.error (.invalidOpenFlags flags), s)
  else
    let found : Except (OpenError Path) RuntimeHandle × Runtime Path := match path with
      | none => (.ok .main, s)
      | some path => openTarget world fuel path flags s
    match found with
    | (.error e, s) => (.error e, s)
    | (.ok target, s) => publishTarget flags target s

/-- One reference less to the object at `id`. -/
def releaseObject (linker : Linker Path) (id : Nat) : Linker Path :=
  { linker with objects := linker.objects.modify id fun object =>
    { object with references := object.references - 1 } }

/-- One reference less to a facade. -/
def DllProvider.release (dll : DllProvider) : DllProvider :=
  { dll with references := dll.references - 1 }

/-- A facade nothing refers to any more answers no search. -/
def hideFacade (linker : Linker Path) (index : Nat) : Linker Path :=
  { linker with scope := linker.scope.setGlobal (.dll index) false }

def closeRuntime (handle : Nat) (s : Runtime Path) : Except (OpenError Path) Unit × Runtime Path :=
  match s.handles.lookup handle with
  | none => (.error (.link .invalidHandle), s)
  | some target =>
    let s := { s with handles := s.handles.filter (·.1 ≠ handle) }
    match target with
    | .main => (.ok (), s)
    | .elf id =>
      if id < s.linker.objects.length then
        (.ok (), { s with linker := releaseObject s.linker id })
      else (.error (.link .invalidHandle), s)
    | .dll index =>
      match s.linker.scope.dlls[index]? with
      | none => (.error (.link .invalidHandle), s)
      | some dll =>
        let s := { s with linker := setDll s.linker index dll.release }
        if s.isLoaded index dll.release then (.ok (), s)
        else (.ok (), { s with linker := hideFacade s.linker index })

/-- A call on the linker at run time; files and guest code may differ from call to call. -/
inductive RuntimeCall (Path : Type)
  | dlopen (world : RuntimeWorld Path) (fuel : Nat) (path : Option Path) (flags : BitVec 32)
  | dlclose (handle : Nat)

/-- The state a call leaves. -/
def Runtime.step (s : Runtime Path) : RuntimeCall Path → Runtime Path
  | .dlopen world fuel path flags => (openRuntime world fuel path flags s).2
  | .dlclose handle => (closeRuntime handle s).2

end Kinakaze.Linker
