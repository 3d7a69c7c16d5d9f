import Kinakaze.Library.Traversal
import Kinakaze.Linker.State

/-!
# Symbol resolution

The lookups an object and a facade answer, the scope's searches through the
load order, and the search below a handle of `dlopen`.  The tables of an ELF
file are kept as what reading them yields: a hash table is the list of indices
its chain visits for a name, and the error the walk ends with, if it does.
-/

namespace Kinakaze.Linker

open Library

variable {Path : Type}

/-! ## Objects -/

structure DynamicSymbol where
  index : Nat
  name : String
  info : Nat
  other : Nat
  sectionIndex : Nat
  value : Nat
  size : Nat

namespace DynamicSymbol

def binding (symbol : DynamicSymbol) : Nat := symbol.info / 16

def symbolType (symbol : DynamicSymbol) : Nat := symbol.info % 16

def visibility (symbol : DynamicSymbol) : Nat := symbol.other % 4

/-- `SHN_UNDEF` is 0. -/
def isDefined (symbol : DynamicSymbol) : Bool := symbol.sectionIndex ≠ 0

/-- `SHN_ABS`. -/
def isAbsolute (symbol : DynamicSymbol) : Bool := symbol.sectionIndex = 0xfff1

/-- `STV_HIDDEN`, `STV_INTERNAL` or `STB_LOCAL`. -/
def isLocalOnly (symbol : DynamicSymbol) : Bool :=
  symbol.visibility = 2 || symbol.visibility = 1 || symbol.binding = 0

/-- `STB_WEAK`. -/
def isWeak (symbol : DynamicSymbol) : Bool := symbol.binding = 2

/-- `STT_TLS`. -/
def isTls (symbol : DynamicSymbol) : Bool := symbol.symbolType = 6

/-- `STT_GNU_IFUNC`. -/
def isIfunc (symbol : DynamicSymbol) : Bool := symbol.symbolType = 10

end DynamicSymbol

/-- `Resolution`: where a symbol was found and what it resolves to. -/
structure Resolution where
  owner : Option Nat
  address : Option Nat
  size : Nat
  tlsModule : Option Nat
  tlsOffset : Option Nat
  isIfunc : Bool
  isTrap : Bool
  deriving DecidableEq

def Resolution.fromAddress (address : Nat) : Resolution where
  owner := none
  address := some address
  size := 0
  tlsModule := none
  tlsOffset := none
  isIfunc := false
  isTrap := false

/-- A parsed hash table. -/
structure HashTable (Path : Type) where
  mayContain : String → Bool
  /-- The indices visited for a name, and how the walk ends when nothing stops it. -/
  candidates : String → List Nat × Option (LinkError Path)

/-- What symbol lookup reads of a mapped object. -/
structure SymbolObject (Path : Type) where
  /-- There is a dynamic symbol table. -/
  hasSymbols : Bool
  symbolCount : Nat
  symbol : Nat → Except (LinkError Path) (Option DynamicSymbol)
  gnuHash : Option (HashTable Path)
  sysvHash : Option (HashTable Path)
  definitionVersion : Nat → Option String
  definitionIsHidden : Nat → Bool
  loadBias : Int
  tlsModule : Option Nat

def versionMatches (object : SymbolObject Path) (symbol : DynamicSymbol) (wanted : Option String) :
    Bool :=
  match wanted with
  | none => !(object.definitionIsHidden symbol.index)
  | some wanted =>
    match object.definitionVersion symbol.index with
    | some available => available = wanted
    | none => true

def SymbolObject.matchingDefinition (object : SymbolObject Path) (index : Nat) (name : String) :
    Except (LinkError Path) (Option DynamicSymbol) := do
  match ← object.symbol index with
  | none => pure none
  | some symbol =>
    if symbol.name ≠ name || !symbol.isDefined then pure none
    else if symbol.isLocalOnly then pure none
    else pure (some symbol)

/-- The loop over candidates: the first whose version matches, else, for a reference without a
version, the first. -/
def SymbolObject.scan (object : SymbolObject Path) (name : String) (version : Option String)
    (ended : Option (LinkError Path)) :
    List Nat → Option DynamicSymbol → Except (LinkError Path) (Option DynamicSymbol)
  | [], fallback =>
    match ended with
    | some e => .error e
    | none => .ok fallback
  | index :: rest, fallback =>
    match object.matchingDefinition index name with
    | .error e => .error e
    | .ok none => scan object name version ended rest fallback
    | .ok (some symbol) =>
      if versionMatches object symbol version then .ok (some symbol)
      else
        scan object name version ended rest
          (if fallback.isNone && version.isNone then some symbol else fallback)

/-- `lookup_versioned`: the GNU hash table first, then the SysV one, then every index. -/
def SymbolObject.lookupVersioned (object : SymbolObject Path) (name : String)
    (version : Option String) : Except (LinkError Path) (Option DynamicSymbol) :=
  if !object.hasSymbols then .ok none
  else
    match object.gnuHash with
    | some table =>
      if !(table.mayContain name) then .ok none
      else object.scan name version (table.candidates name).2 (table.candidates name).1 none
    | none =>
      match object.sysvHash with
      | some table =>
        object.scan name version (table.candidates name).2 (table.candidates name).1 none
      | none => object.scan name version none (List.range object.symbolCount) none

def SymbolObject.lookup (object : SymbolObject Path) (name : String) :
    Except (LinkError Path) (Option DynamicSymbol) :=
  object.lookupVersioned name none

def SymbolObject.resolveAddress (object : SymbolObject Path) (virtualAddress : Nat) :
    Except (LinkError Path) Nat :=
  let value := object.loadBias + virtualAddress
  if 0 ≤ value ∧ value < usize then .ok value.toNat else .error .addressOverflow

def SymbolObject.definitionAddress (object : SymbolObject Path) (symbol : DynamicSymbol) :
    Except (LinkError Path) Nat :=
  if symbol.isAbsolute then
    if symbol.value < usize then .ok symbol.value else .error .addressOverflow
  else object.resolveAddress symbol.value

/-- `definition_of`: a resolution from a definition found in a specific object. -/
def definitionOf (owner : Nat) (object : SymbolObject Path) (symbol : DynamicSymbol) :
    Except (LinkError Path) Resolution := do
  if symbol.isTls then
    if symbol.value < usize then
      pure
        { owner := some owner
          address := none
          size := symbol.size
          tlsModule := object.tlsModule
          tlsOffset := some symbol.value
          isIfunc := false
          isTrap := false }
    else throw .addressOverflow
  else
    let address ← object.definitionAddress symbol
    pure
      { owner := some owner
        address := some address
        size := symbol.size
        tlsModule := none
        tlsOffset := none
        isIfunc := symbol.isIfunc
        isTrap := false }

/-! ## Facades -/

inductive ProviderSymbolKind
  | function
  | object
  | tls (module offset : Nat)

structure ProviderSymbol where
  name : String
  kind : ProviderSymbolKind
  size : Nat
  versions : List String
  defaultVersion : Option String

def ProviderSymbol.matchesVersion (symbol : ProviderSymbol) (version : Option String) : Bool :=
  match version with
  | some version => version ∈ symbol.versions
  | none => symbol.versions.isEmpty || symbol.defaultVersion.isSome

/-- The bound image of a facade; the names of its symbols differ. -/
structure BoundImage (Path : Type) where
  symbols : List ProviderSymbol
  symbolAddress : Nat → Except (LinkError Path) Nat

/-- What symbol lookup reads of a facade. -/
structure SymbolDll (Path : Type) where
  references : Nat
  nodelete : Bool
  image : Except (LinkError Path) (BoundImage Path)

def SymbolDll.isLoaded (dll : SymbolDll Path) : Bool := dll.references ≠ 0 || dll.nodelete

def SymbolDll.resolve (dll : SymbolDll Path) (name : String) (version : Option String) :
    Except (LinkError Path) (Option Resolution) := do
  if !dll.isLoaded then pure none
  else
    let image ← dll.image
    match image.symbols.findIdx? (·.name = name) with
    | none => pure none
    | some index =>
      match image.symbols[index]? with
      | none => pure none
      | some symbol =>
        if !(symbol.matchesVersion version) then pure none
        else
          match symbol.kind with
          | .tls module offset =>
            pure (some { Resolution.fromAddress 0 with
              address := none
              tlsModule := some module
              tlsOffset := some offset
              size := symbol.size })
          | _ => do
            let address ← image.symbolAddress index
            pure (some { Resolution.fromAddress address with size := symbol.size })

/-! ## The scope -/

/-- The objects and facades of a linker, with the load order and the dependencies that
loading recorded: every position is in range and every object has its own. -/
structure SymbolScope (Path : Type) where
  objects : List (SymbolObject Path)
  dlls : List (SymbolDll Path)
  providers : List Provider
  globals : List Bool
  providerDependencies : List (List Provider)
  aligned : providerDependencies.length = objects.length
  once : providers.Nodup
  listed : ∀ id < objects.length, Provider.elf id ∈ providers
  objectsInRange : ∀ id, Provider.elf id ∈ providers ∨
    (∃ dependencies ∈ providerDependencies, Provider.elf id ∈ dependencies) → id < objects.length
  dllsInRange : ∀ index, Provider.dll index ∈ providers ∨
    (∃ dependencies ∈ providerDependencies, Provider.dll index ∈ dependencies) → index < dlls.length

namespace SymbolScope

variable (scope : SymbolScope Path)

def resolveInOrder (name : String) (version : Option String) (skip : Option Nat) :
    List Provider → Option Resolution → Except (LinkError Path) (Option Resolution)
  | [], weakFallback => .ok weakFallback
  | .elf id :: rest, weakFallback =>
    if some id = skip then resolveInOrder name version skip rest weakFallback
    else
      match scope.objects[id]? with
      | none => .error .invalidHandle
      | some object =>
        match object.lookupVersioned name version with
        | .error e => .error e
        | .ok none => resolveInOrder name version skip rest weakFallback
        | .ok (some symbol) =>
          match definitionOf id object symbol with
          | .error e => .error e
          | .ok resolution =>
            if symbol.isWeak then
              resolveInOrder name version skip rest (weakFallback <|> some resolution)
            else .ok (some resolution)
  | .dll index :: rest, weakFallback =>
    match scope.dlls[index]? with
    | none => resolveInOrder name version skip rest weakFallback
    | some dll =>
      match dll.resolve name version with
      | .error e => .error e
      | .ok (some resolution) => .ok (some resolution)
      | .ok none => resolveInOrder name version skip rest weakFallback

/-- A provider at an index is global unless its flag says otherwise. -/
def isGlobal (index : Nat) : Bool := scope.globals.getD index true

def resolveFiltered (name : String) (version : Option String) (skip : Option Nat) (start : Nat) :
    Except (LinkError Path) (Option Resolution) :=
  scope.resolveInOrder name version skip
    (((scope.providers.zipIdx.drop start).filter fun entry => scope.isGlobal entry.2).map (·.1))
    none

def resolve (name : String) (version : Option String) :
    Except (LinkError Path) (Option Resolution) :=
  scope.resolveFiltered name version none 0

def resolveExcluding (name : String) (version : Option String) (skip : Option Nat) :
    Except (LinkError Path) (Option Resolution) :=
  scope.resolveFiltered name version skip 0

def resolveAfter (caller : Nat) (name : String) (version : Option String) :
    Except (LinkError Path) (Option Resolution) :=
  let start := ((scope.providers.findIdx? (· = .elf caller)).map (· + 1)).getD 0
  scope.resolveFiltered name version none start

def resolvePreferred (name : String) (version : Option String) (preferred : List Provider) :
    Except (LinkError Path) (Option Resolution) :=
  if preferred.isEmpty then scope.resolve name version
  else
    scope.resolveInOrder name version none (preferred ++ (scope.providers.zipIdx.filter fun entry =>
        scope.isGlobal entry.2 && !(preferred.contains entry.1)).map (·.1)) none

/-- `&objects[id.0]`, for an id in range. -/
def objectAt (id : Fin scope.objects.length) : SymbolObject Path := scope.objects[id]

theorem getElem?_objectAt (id : Fin scope.objects.length) :
    scope.objects[(id : Nat)]? = some (scope.objectAt id) :=
  List.getElem?_eq_getElem id.2

def resolveSymbolic (owner : Fin scope.objects.length) (name : String) (version : Option String)
    (preferred : List Provider) : Except (LinkError Path) (Option Resolution) := do
  match ← (scope.objectAt owner).lookup name with
  | some symbol =>
    if versionMatches (scope.objectAt owner) symbol version then
      let resolution ← definitionOf owner (scope.objectAt owner) symbol
      pure (some resolution)
    else scope.resolvePreferred name version preferred
  | none => scope.resolvePreferred name version preferred

/-! ## Handles -/

/-- The recorded dependencies of a provider; a facade has none. -/
def dependenciesOf : Provider → List Provider
  | .elf id => scope.providerDependencies.getD id []
  | .dll _ => []

/-- `runtime_provider_closure` of an object. -/
def runtimeProviderClosure (fuel : Nat) (id : Nat) : List Provider :=
  closure scope.dependenciesOf fuel [] [.elf id]

/-- What one provider answers below a handle. -/
def answerOf (name : String) (version : Option String) :
    Provider → Except (LinkError Path) (Option Resolution)
  | .elf id =>
    match scope.objects[id]? with
    | none => .error .invalidHandle
    | some object => do
      match ← object.lookupVersioned name version with
      | none => pure none
      | some symbol => do
        let resolution ← definitionOf id object symbol
        pure (some resolution)
  | .dll index =>
    match scope.dlls[index]? with
    | none => .error .invalidHandle
    | some dll => dll.resolve name version

/-- Try the dependencies in turn until one answers. -/
def firstAnswer (search : Provider → List Provider →
      Except (LinkError Path) (Option Resolution) × List Provider) :
    List Provider → List Provider → Except (LinkError Path) (Option Resolution) × List Provider
  | [], visited => (.ok none, visited)
  | dependency :: rest, visited =>
    match search dependency visited with
    | (.ok none, visited) => firstAnswer search rest visited
    | found => found

/-- `lookup_in_provider`: the answer, and what has been visited. -/
def lookupInProvider (name : String) (version : Option String) :
    Nat → Provider → List Provider → Except (LinkError Path) (Option Resolution) × List Provider
  | 0, _, visited => (.error .tooDeep, visited)
  | fuel + 1, provider, visited =>
    if provider ∈ visited then (.ok none, visited)
    else
      match scope.answerOf name version provider with
      | .ok none =>
        firstAnswer (lookupInProvider name version fuel) (scope.dependenciesOf provider)
          (visited ++ [provider])
      | answer => (answer, visited ++ [provider])

def lookupInVersion (fuel : Nat) (id : Nat) (name : String) (version : Option String) :
    Except (LinkError Path) (Option Resolution) :=
  (scope.lookupInProvider name version fuel (.elf id) []).1

end SymbolScope

end Kinakaze.Linker
