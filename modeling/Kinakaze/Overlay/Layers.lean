import Mathlib.Algebra.Ring.Nat
import Mathlib.Algebra.Ring.Int.Defs
import Kinakaze.Path.Confinement

/-!
# Looking names up in an overlay

An overlay shows several layers as one tree.  A node of it is an entry of a layer, or a directory
that has entries in several; a name is looked up in each of them, from the highest layer down.
-/

namespace Kinakaze.Overlay

open Path

def ENOENT : Int := 2
def EIO : Int := 5
def EINVAL : Int := 22
def ENAMETOOLONG : Int := 36
def ELOOP : Int := 40
def EOPNOTSUPP : Int := 95

def S_IFMT : BitVec 32 := 0o170000
def S_IFCHR : BitVec 32 := 0o020000
def S_IFDIR : BitVec 32 := 0o040000
def S_IFREG : BitVec 32 := 0o100000

/-! ## Names -/

def ESCAPE_MAX : Nat := 0x7f

/-- A character that `unescape_path` takes for an escaped one. -/
def isEscape (c : Char) : Bool :=
  ESCAPE_BASE + 1 ≤ c.toNat && c.toNat ≤ ESCAPE_BASE + ESCAPE_MAX

def unescapePath (path : Text) : Text :=
  path.map fun c => if isEscape c then .ofNat (c.toNat - ESCAPE_BASE) else c

def validateComponent (name : Text) : Except Int Unit :=
  if name.isEmpty || name == ['.'] || name == ['.', '.'] ||
      name.any fun c => c == '/' || c == '\\' || c == Char.ofNat 0 then .error EINVAL
  else if (name.map Char.utf8Size).sum > 255 then .error ENAMETOOLONG
  else .ok ()

/-! ## Layers -/

inductive XattrNamespace
  | trusted
  | user
  deriving DecidableEq

/-- What follows the prefix of the namespace in the name of an attribute. -/
inductive Suffix
  | whiteout
  | opaqueness
  | redirect
  | metacopy
  deriving DecidableEq

structure Stat where
  st_ino : Nat
  st_mode : BitVec 32
  st_rdev : Nat
  st_size : Nat

abbrev Attributes := List ((XattrNamespace × Suffix) × List UInt8)

mutual

/-- An object of a layer, with the entries that it has under their stored names. -/
inductive Tree
  | node (stat : Stat) (attributes : Attributes) (entries : Forest)

inductive Forest
  | nil
  | cons (stored : Text) (object : Tree) (rest : Forest)

end

def Tree.stat : Tree → Stat
  | .node stat _ _ => stat

def Tree.attributes : Tree → Attributes
  | .node _ attributes _ => attributes

def Tree.entries : Tree → Forest
  | .node _ _ entries => entries

def Forest.lookup (stored : Text) : Forest → Option Tree
  | .nil => none
  | .cons name object rest => if name = stored then some object else rest.lookup stored

def Forest.names : Forest → List Text
  | .nil => []
  | .cons name _ rest => name :: rest.names

def Tree.attr (ns : XattrNamespace) (object : Tree) (suffix : Suffix) : Option (List UInt8) :=
  object.attributes.lookup (ns, suffix)

def Tree.kind (object : Tree) : BitVec 32 := object.stat.st_mode &&& S_IFMT

/-- `Object::child`, with its check of the stored name. -/
def Tree.child (object : Tree) (stored : Text) : Except Int Tree :=
  if stored.isEmpty || stored == ['.'] || stored == ['.', '.'] ||
      stored.any fun c => c == '/' || c == '\\' || c == ':' then .error EINVAL
  else
    match object.entries.lookup stored with
    | none => .error ENOENT
    | some entry => .ok entry

/-! ## Backing objects -/

structure Backing where
  layer : Nat
  object : Tree
  whiteout : Bool
  isOpaque : Bool
  requiresRedirectOrMetacopy : Bool
  redirect : Option Text
  metacopy : Option (List UInt8)

def Tree.isWhiteout (ns : XattrNamespace) (object : Tree) : Bool :=
  object.kind == S_IFCHR && object.stat.st_rdev == 0 ||
    object.kind == S_IFREG && object.stat.st_size == 0 && (object.attr ns .whiteout).isSome

def Tree.isOpaque (ns : XattrNamespace) (object : Tree) : Bool :=
  object.kind == S_IFDIR && object.attr ns .opaqueness == some [0x79]

def Tree.isDirectory (object : Tree) : Bool := object.kind == S_IFDIR

/-- A redirect has to be text. -/
def decodeRedirect : Option (List UInt8) → Except Int (Option Text)
  | none => .ok none
  | some bytes =>
    match String.fromUTF8? ⟨bytes.toArray⟩ with
    | none => .error EIO
    | some text => .ok (some text.toList)

def Backing.fromObject (ns : XattrNamespace) (layer : Nat) (object : Tree) : Except Int Backing :=
  match decodeRedirect (object.attr ns .redirect) with
  | .error e => .error e
  | .ok redirect =>
    .ok
      { layer
        object
        whiteout := object.isWhiteout ns
        isOpaque := object.isOpaque ns
        requiresRedirectOrMetacopy :=
          (object.attr ns .redirect).isSome || (object.attr ns .metacopy).isSome
        redirect
        metacopy := object.attr ns .metacopy }

def Backing.isDirectory (b : Backing) : Bool := b.object.isDirectory

/-- What a directory of a layer has under a stored name. -/
def Backing.entry (ns : XattrNamespace) (parent : Backing) (stored : Text) : Except Int Backing :=
  match parent.object.child stored with
  | .error e => .error e
  | .ok object => Backing.fromObject ns parent.layer object

/-! ## Nodes -/

/-- The features of a mount.  What a redirect leads to, what the index has for a file and how
metadata copies are verified is left open. -/
structure LookupContext where
  metacopy : Bool
  follow : Bool
  nfsExport : Bool
  dataCount : Nat
  redirected : List Backing → Backing → Nat → Text → Nat → Bool → Except Int (List Backing)
  exported : List Backing → Except Int (List Backing)
  indexed : List Backing → Except Int (Option Backing)
  verified : List Backing → Except Int Unit

/-- A node has at least one entry. -/
structure Node where
  first : Backing
  rest : List Backing
  ns : XattrNamespace
  context : Option LookupContext

def Node.entries (n : Node) : List Backing := n.first :: n.rest

def Node.isDirectory (n : Node) : Bool := n.first.isDirectory

/-- The node for the entries that a lookup found. -/
def Node.ofEntries (ns : XattrNamespace) (context : Option LookupContext) :
    List Backing → Except Int Node
  | [] => .error ENOENT
  | first :: rest => .ok { first, rest, ns, context }

/-- `Node::root`, and `from_objects`. -/
def Node.root (ns : XattrNamespace) (layers : List Tree) : Except Int Node := do
  let entries ← layers.zipIdx.mapM fun (object, layer) => do
    let entry ← Backing.fromObject ns layer object
    if entry.isDirectory then pure entry else throw ENOTDIR
  match entries with
  | [] => .error EINVAL
  | first :: rest => .ok { first, rest, ns, context := none }

/-- The loop of `child`. -/
def childLoop (ns : XattrNamespace) (stored : Text) :
    List Backing → List Backing → Except Int (List Backing)
  | [], entries => .ok entries
  | parent :: parents, entries =>
    match parent.entry ns stored with
    | .error e => if e = ENOENT then childLoop ns stored parents entries else .error e
    | .ok entry =>
      if entry.whiteout then .ok entries
      else if !entries.isEmpty && !entry.isDirectory then .ok entries
      else if entry.requiresRedirectOrMetacopy then .error EOPNOTSUPP
      else if !entry.isDirectory || entry.isOpaque then .ok (entries ++ [entry])
      else childLoop ns stored parents (entries ++ [entry])

/-- What `feature_child` does with an entry that is no whiteout: whether it ends the search, the
entries found, and whether they still lack data. -/
def featureEntry (context : LookupContext) (depth : Nat) (all : List Backing) (parent : Backing)
    (found : List Backing) (needData : Bool) (entry : Backing) :
    Except Int (Bool × List Backing × Bool) :=
  if found.head?.any fun first => entry.isDirectory != first.isDirectory then
    .ok (true, found, needData)
  else if entry.metacopy.isSome && entry.object.kind != S_IFREG then .error EIO
  else if entry.metacopy.isSome && !context.metacopy &&
      (context.dataCount == 0 || !entry.redirect.any fun path => path.head? == some '/') then
    .error EIO
  else
    let stop := (!entry.isDirectory && entry.metacopy.isNone) || entry.isOpaque
    let kept : Except Int (Bool × List Backing × Bool) :=
      .ok (stop, found ++ [entry], entry.metacopy.isSome)
    match entry.redirect with
    | none => kept
    | some redirect =>
      if entry.isDirectory && context.follow ||
          entry.metacopy.isSome && (context.follow || context.dataCount != 0) then
        if redirect.isEmpty || redirect.any fun c => c == Char.ofNat 0 || c == '\\' then
          .error EIO
        else
          match context.redirected all parent entry.layer redirect (depth + 1)
              entry.metacopy.isSome with
          | .error e => .error e
          | .ok target =>
            if target.head?.any fun first => entry.isDirectory != first.isDirectory then
              .error EIO
            else .ok (true, found ++ [entry] ++ target, false)
      else kept

/-- The loop of `feature_child`. -/
def featureLoop (ns : XattrNamespace) (context : LookupContext) (stored : Text)
    (depth : Nat) (all : List Backing) :
    List Backing → List Backing → Bool → Except Int (List Backing × Bool)
  | [], found, needData => .ok (found, needData)
  | parent :: parents, found, needData =>
    match parent.entry ns stored with
    | .error e =>
      if e = ENOENT then featureLoop ns context stored depth all parents found needData
      else .error e
    | .ok entry =>
      if entry.whiteout then .ok (found, needData)
      else
        match featureEntry context depth all parent found needData entry with
        | .error e => .error e
        | .ok (true, found, needData) => .ok (found, needData)
        | .ok (false, found, needData) =>
          featureLoop ns context stored depth all parents found needData

/-- What `feature_child` still does to the entries that it found. -/
def completeEntries (context : LookupContext) (found : List Backing) :
    Except Int (List Backing) := do
  let isDirectory := found.head?.any (·.isDirectory)
  let upper := found.head?.any fun first => first.layer == 0
  let found ← if isDirectory && upper && context.nfsExport then context.exported found
    else .ok found
  let index ← if !isDirectory && !upper then context.indexed found else .ok none
  let found := match index with
    | none => found
    | some entry => if entry.metacopy.isSome then entry :: found else [entry]
  if found.head?.any fun first => first.metacopy.isSome then context.verified found
  .ok found

def Node.featureChild (n : Node) (context : LookupContext) (name : Text) (depth : Nat) :
    Except Int Node := do
  validateComponent name
  if !n.isDirectory then throw ENOTDIR
  if depth ≥ 40 then throw ELOOP
  let (found, needData) ←
    featureLoop n.ns context (escapeComponent name) depth n.entries n.entries [] false
  if found.isEmpty then throw ENOENT
  if needData then throw EIO
  let found ← completeEntries context found
  Node.ofEntries n.ns (some context) found

def Node.child (n : Node) (name : Text) : Except Int Node :=
  match n.context with
  | some context => n.featureChild context name 0
  | none => do
    validateComponent name
    if !n.isDirectory then throw ENOTDIR
    let entries ← childLoop n.ns (escapeComponent name) n.entries []
    Node.ofEntries n.ns none entries

/-! ## Listing -/

structure DirectoryItem where
  name : Text
  mode : BitVec 32
  deriving DecidableEq

/-- The inner loop of `directory_snapshot`, over the stored names of one directory. -/
def snapshotLoop (ns : XattrNamespace) (parent : Backing) :
    List Text → List Text × List DirectoryItem → Except Int (List Text × List DirectoryItem)
  | [], state => .ok state
  | stored :: names, (seen, items) =>
    let name := unescapePath stored
    if seen.contains name then snapshotLoop ns parent names (seen, items)
    else
      match parent.entry ns stored with
      | .error e => .error e
      | .ok entry =>
        snapshotLoop ns parent names (name :: seen, if entry.whiteout then items
            else items ++ [⟨name, entry.object.stat.st_mode⟩])

def Node.directorySnapshot (n : Node) : Except Int (List DirectoryItem) := do
  if !n.isDirectory then throw ENOTDIR
  let (_, items) ← n.entries.foldlM (fun state parent =>
    snapshotLoop n.ns parent parent.object.entries.names state) ([], [])
  .ok items

end Kinakaze.Overlay
