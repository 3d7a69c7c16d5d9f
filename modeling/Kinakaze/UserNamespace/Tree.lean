import Kinakaze.UserNamespace.Mapping

/-!
# The tree of user namespaces

Each namespace is a store of its own with the bytes of a `State`.  A namespace starts
with empty maps, and each map is written once.
-/

namespace Kinakaze.UserNamespace

open Library

abbrev Id := BitVec 64

structure State where
  owner : BitVec 32
  parent : Id
  deniedGroups : Bool
  maps : Mapping
  deriving DecidableEq

/-- `b"CYUSER01"`. -/
def magic : Bytes := [67, 89, 85, 83, 69, 82, 48, 49]

def State.encode (s : State) : Bytes :=
  magic ++ leBytes 4 s.owner.toNat ++ leBytes 4 (if s.deniedGroups then 1 else 0) ++
    leBytes 8 s.parent.toNat ++ s.maps.encode

def State.decode (bytes : Bytes) : Except Int State :=
  if bytes.length < 24 ∨ bytes.take 8 ≠ magic then .error EIO
  else do
    let maps ← Mapping.decode (bytes.drop 24)
    return ⟨.ofNat 32 (ofLe ((bytes.drop 8).take 4)), .ofNat 64 (ofLe ((bytes.drop 16).take 8)),
      (bytes.drop 12).take 4 != [0, 0, 0, 0], maps⟩

/-- The stores of the namespaces, and the counter that names new objects. -/
structure Tree where
  stores : Id → Option Bytes
  next : Id

def identityRow : Row := ⟨0, 0, .ofNat 32 U32_MAX⟩

/-- The state of the initial namespace. -/
def State.initial : State := ⟨0, 0, false, [identityRow], [identityRow]⟩

def Tree.initial : Tree where
  stores id := if id = 1 then some State.initial.encode else none
  next := 2

def Tree.stateOf (tree : Tree) (id : Id) : Except Int State :=
  match tree.stores id with
  | none => .error ENOENT
  | some bytes => State.decode bytes

/-! ## Maps to the initial namespace -/

/-- The loop over the ancestors, for so many turns: the maps on the way, and where it
has stopped. -/
def Tree.climb (tree : Tree) : Nat → Id → Except Int (List Mapping × Id)
  | 0, at_ => .ok ([], at_)
  | turns + 1, at_ => do
    let state ← tree.stateOf at_
    if at_ = 1 then return ([state.maps], 1)
    else if state.parent = 0 then throw EIO
    else
      let (chain, top) ← tree.climb turns state.parent
      return (state.maps :: chain, top)

/-- The maps of the chain composed from the top down. -/
def composeChain : List Mapping → Except Int Mapping
  | [] => .error EIO
  | [m] => .ok m
  | m :: rest => (composeChain rest).map m.compose

def Tree.mapToInitial (tree : Tree) (id : Id) : Except Int Mapping := do
  let (chain, top) ← tree.climb 33 id
  if top ≠ 1 then throw EIO
  composeChain chain

/-! ## Callers -/

/-- The process that makes a call. -/
structure Caller where
  namespace_ : Id
  uid : BitVec 32
  gid : BitVec 32
  effective : BitVec 64
  threads : Nat
  confined : Bool

def Caller.id (c : Caller) (group : Bool) : BitVec 32 := if group then c.gid else c.uid

/-- The loop of `capable`. -/
def Tree.capableFrom (tree : Tree) (c : Caller) (bit : Nat) : Nat → Id → Bool
  | 0, _ => false
  | turns + 1, ns =>
    if ns = c.namespace_ then
      c.effective.getLsbD bit || (c.namespace_ = 1 && c.uid = 0)
    else
      match tree.stateOf ns with
      | .error _ => false
      | .ok state =>
        if state.parent = c.namespace_ && state.owner = c.uid then true
        else if state.parent = 0 then false
        else tree.capableFrom c bit turns state.parent

def Tree.capable (tree : Tree) (c : Caller) (target : Id) (bit : Nat) : Bool :=
  tree.capableFrom c bit 33 target

/-! ## New namespaces -/

/-- The loop that bounds the depth. -/
def Tree.checkDepth (tree : Tree) : Nat → Id → Except Int Unit
  | 0, ancestor => if ancestor = 1 then .ok () else .error ENOSPC
  | left + 1, ancestor =>
    if ancestor = 1 then .ok ()
    else do
      let state ← tree.stateOf ancestor
      tree.checkDepth left state.parent

def Tree.groupsAllowed (tree : Tree) (id : Id) : Bool :=
  if id = 1 then true
  else
    match tree.stateOf id with
    | .ok state => !state.deniedGroups
    | .error _ => false

/-- The id of a new object; the counter stops short of its end. -/
def Tree.newObject (tree : Tree) : Except Int (Id × Tree) :=
  if tree.next.toNat < 2 ^ 64 - 1 - 2 ^ 32 then
    .ok (tree.next, { tree with next := tree.next + 1 })
  else .error 75

def Tree.prepareUnshare (tree : Tree) (c : Caller) : Except Int Tree := do
  if c.threads ≠ 1 then throw EINVAL
  let map ← tree.mapToInitial c.namespace_
  if map.up c.uid false = none ∨ map.up c.gid true = none then throw EPERM
  if c.confined then throw EPERM
  tree.checkDepth 32 c.namespace_
  let (id, tree') ← tree.newObject
  let state : State := ⟨c.uid, c.namespace_, !tree.groupsAllowed c.namespace_, [], []⟩
  return { tree' with stores := Function.update tree.stores id (some state.encode) }

/-! ## Writing a map -/

def isSpace (c : Char) : Bool := c = ' ' || ('\t' ≤ c && c ≤ '\r')

/-- `str::parse::<u32>`. -/
def parseU32 (field : List Char) : Except Int (BitVec 32) :=
  let digits := if field.head? = some '+' then field.tail else field
  if digits = [] ∨ !digits.all Char.isDigit then .error EINVAL
  else
    let value := digits.foldl (fun value c => 10 * value + (c.toNat - '0'.toNat)) 0
    if value < 2 ^ 32 then .ok (.ofNat 32 value) else .error EINVAL

/-- `write_text`: the text up to a NUL. -/
def writeText (bytes : Bytes) : Except Int (List Char) :=
  let text : ByteArray := ⟨((bytes.takeWhile (· ≠ 0)).map UInt8.ofBitVec).toArray⟩
  match String.fromUTF8? text with
  | some text => .ok text.toList
  | none => .error EINVAL

/-- `str::lines`; a carriage return at the end of a line separates fields anyway. -/
def textLines (text : List Char) : List (List Char) :=
  let pieces := text.splitOnP fun c => c = '\n'
  if pieces.getLast? = some [] then pieces.dropLast else pieces

def parseRow (line : List Char) : Except Int Row := do
  let values ← ((line.splitOnP isSpace).filter fun field => field ≠ []).mapM parseU32
  match values with
  | [inside, outside, count] => return ⟨inside, outside, count⟩
  | _ => throw EINVAL

/-- Some row of the parent's map holds the whole range of `row`. -/
def Row.admitted (parent : List Row) (row : Row) : Bool :=
  parent.any fun p => p.inside.toNat ≤ row.outside.toNat &&
    row.outside.toNat + row.count.toNat ≤ p.inside.toNat + p.count.toNat

/-- What a caller without the capability in the parent may write: its own id. -/
def ownRow (c : Caller) (state : State) (parentMap : Mapping) (group : Bool) (rows : List Row) :
    Bool :=
  match parentMap.up (c.id group) group, rows with
  | some own, [row] =>
    row.outside = own && row.count = 1 && c.uid = state.owner && !(group && !state.deniedGroups)
  | _, _ => false

def Mapping.setRows (m : Mapping) (group : Bool) (rows : List Row) : Mapping :=
  if group then { m with gid := rows } else { m with uid := rows }

/-- The closure of `write_map` on the state of the namespace. -/
def Tree.writeRows (tree : Tree) (c : Caller) (target : Id) (group : Bool) (rows : List Row)
    (state : State) : Except Int State := do
  if c.namespace_ ≠ target ∧ c.namespace_ ≠ state.parent then throw EPERM
  let parentMap ← tree.mapToInitial state.parent
  if !rows.all (Row.admitted (parentMap.rows group)) then throw EPERM
  if !tree.capable c state.parent (if group then 6 else 7) &&
      !ownRow c state parentMap group rows then throw EPERM
  if state.maps.rows group ≠ [] then throw EPERM
  return { state with maps := state.maps.setRows group rows }

def Tree.writeMap (tree : Tree) (c : Caller) (target : Id) (group : Bool) (bytes : Bytes)
    (offset : Nat) : Except Int Tree := do
  if offset ≠ 0 ∨ bytes = [] ∨ 4096 ≤ bytes.length then throw EINVAL
  let state ← tree.stateOf target
  if target = 1 then throw EPERM
  let rows ← (textLines (← writeText bytes)).mapM parseRow
  if rows = [] ∨ 340 < rows.length then throw EINVAL
  validate rows
  let state ← tree.writeRows c target group rows state
  return { tree with stores := Function.update tree.stores target (some state.encode) }

/-! ## Giving up the right to drop groups -/

def trimEnd (text : List Char) : List Char := (text.reverse.dropWhile isSpace).reverse

/-- The closure of `groups`, for a value to write. -/
def Tree.setGroups (tree : Tree) (c : Caller) (target : Id) (value : Bytes) (state : State) :
    Except Int State := do
  if target = 1 ∨ !tree.capable c target 21 then throw EPERM
  let text := trimEnd (← writeText value)
  if text = ['d', 'e', 'n', 'y'] then
    if state.maps.gid = [] then return { state with deniedGroups := true } else throw EPERM
  else if text = ['a', 'l', 'l', 'o', 'w'] then
    if state.deniedGroups then throw EPERM else return state
  else throw EINVAL

def Tree.groups (tree : Tree) (c : Caller) (target : Id) (value : Bytes) : Except Int Tree := do
  let state ← tree.stateOf target
  let state ← tree.setGroups c target value state
  return { tree with stores := Function.update tree.stores target (some state.encode) }

/-! ## Steps -/

inductive Action where
  | prepareUnshare (c : Caller)
  | writeMap (c : Caller) (target : Id) (group : Bool) (bytes : Bytes) (offset : Nat)
  | groups (c : Caller) (target : Id) (value : Bytes)
  /-- An object of another kind takes an id. -/
  | newObject

def Tree.act (tree : Tree) : Action → Except Int Tree
  | .prepareUnshare c => tree.prepareUnshare c
  | .writeMap c target group bytes offset => tree.writeMap c target group bytes offset
  | .groups c target value => tree.groups c target value
  | .newObject => tree.newObject.map Prod.snd

/-- A call that fails leaves the tree as it is. -/
def Tree.step (tree : Tree) (a : Action) : Tree :=
  match tree.act a with
  | .ok tree' => tree'
  | .error _ => tree

end Kinakaze.UserNamespace
