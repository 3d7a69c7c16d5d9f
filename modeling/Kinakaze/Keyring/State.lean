import Kinakaze.Library.OrderedTable

/-!
# Keys and keyrings

Keys are shared by the processes of a domain.  A keyring is a key that links to others; a key
that is revoked or has expired can no longer be used, but stays.
-/

namespace Kinakaze.Keyring

open Library

def EPERM : Int := 1
def ENOENT : Int := 2
def EACCES : Int := 13
def ENODEV : Int := 19
def ENOTDIR : Int := 20
def EINVAL : Int := 22
def ENOSPC : Int := 28
def EDEADLK : Int := 35
def EOPNOTSUPP : Int := 95
def EDQUOT : Int := 122
def ENOKEY : Int := 126
def EKEYEXPIRED : Int := 127
def EKEYREVOKED : Int := 128

/-- The keyrings of a thread, 0 where it has none. -/
structure Task where
  session : Nat := 0
  thread : Nat := 0
  process : Nat := 0

structure Key where
  ns : Nat
  uid : BitVec 32
  gid : BitVec 32
  perm : BitVec 32
  revoked : Bool := false
  expires : Nat := 0
  kind : String
  name : String
  data : List (BitVec 8) := []
  links : List Nat := []

structure State where
  next : Nat := 1
  keys : Table Key := ∅

/-- Who makes a call, and when: `credentials::current`, `credentials::group_member`, the user
namespace, `user_namespace::capable` and `now`. -/
structure Caller where
  uid : BitVec 32
  gid : BitVec 32
  member : BitVec 32 → Bool
  ns : Nat
  capable : Nat → Bool
  now : Nat

/-! ## Quotas -/

/-- The bytes a key is charged for. -/
def Key.charge (k : Key) : Nat := k.data.length + k.name.utf8ByteSize

def maxKeys (uid : BitVec 32) : Nat := if uid = 0 then 1000000 else 200

def maxBytes (uid : BitVec 32) : Nat := if uid = 0 then 25000000 else 20000

/-- The number of keys a user owns. -/
def State.owned (s : State) (uid : BitVec 32) : Nat := countIf s.keys fun k => k.uid == uid

/-- The sum of a weight over the keys a user owns. -/
def State.sum (s : State) (uid : BitVec 32) (weight : Key → Nat) : Nat :=
  total s.keys fun k => if k.uid = uid then weight k else 0

def State.create (c : Caller) (s : State) (kind name : String) (data : List (BitVec 8)) :
    Except Int (Nat × State) :=
  if !(["keyring", "user", "logon"].contains kind) then .error ENODEV
  else if name.utf8ByteSize > 4095 || name == "" || name.toList.contains ';' ||
      (kind == "logon" && !name.toList.contains ':') then .error EINVAL
  else if data.length > 32767 || (kind == "keyring" && !data.isEmpty) then .error EINVAL
  else if s.owned c.uid ≥ maxKeys c.uid ||
      s.sum c.uid Key.charge + data.length + name.utf8ByteSize > maxBytes c.uid then .error EDQUOT
  else if s.next + 1 ≥ 2 ^ 31 then .error ENOSPC
  else
    .ok (s.next,
      { next := s.next + 1
        keys := s.keys.insert s.next
          { ns := c.ns, uid := c.uid, gid := c.gid, perm := 0x3f010000, kind, name, data } })

/-! ## Permissions -/

def Key.expired (k : Key) (now : Nat) : Bool := k.expires != 0 && k.expires ≤ now

def State.live (now : Nat) (s : State) (id : Nat) : Except Int Key :=
  match s.keys[id]? with
  | none => .error ENOKEY
  | some k =>
    if k.revoked then .error EKEYREVOKED
    else if k.expired now then .error EKEYEXPIRED
    else .ok k

/-- `State::contains`, which sees at most 1024 keys.  Each step down sees one more, so that
the depth is bounded as well. -/
def State.contains (now : Nat) (s : State) (wanted : Nat) : Nat → Nat → List Nat → Bool × List Nat
  | 0, _, seen => (false, seen)
  | fuel + 1, root, seen =>
    if root = wanted then (true, seen)
    else if seen.contains root then (false, seen)
    else if seen.length + 1 > 1024 then (false, root :: seen)
    else
      match s.live now root with
      | .error _ => (false, root :: seen)
      | .ok k =>
        k.links.foldl (fun (found, seen) id =>
          if found then (found, seen) else s.contains now wanted fuel id seen)
          (false, root :: seen)

/-- The search from a key, which has seen nothing yet. -/
def State.finds (now : Nat) (s : State) (root wanted : Nat) : Bool :=
  (s.contains now wanted 1026 root []).1

def State.permission (c : Caller) (s : State) (task : Task) (id : Nat) (need : BitVec 32) :
    Except Int Unit :=
  match s.live c.now id with
  | .error e => .error e
  | .ok k =>
    let «class» :=
      if k.uid = c.uid then (k.perm >>> 16) &&& 0x3f
      else if c.member k.gid then (k.perm >>> 8) &&& 0x3f
      else k.perm &&& 0x3f
    let possessed := [task.session, task.thread, task.process].any fun root =>
      s.finds c.now root id
    if («class» ||| if possessed then k.perm >>> 24 else 0) &&& need = need then .ok ()
    else .error EACCES

/-! ## Keyrings -/

/-- The description of the keyring that a number stands for. -/
def specialName (c : Caller) (id : Int) : Option String :=
  if id = -1 then some "_tid"
  else if id = -2 then some "_pid"
  else if id = -3 then some "_ses"
  else if id = -4 then some ("_uid." ++ toString c.uid.toNat)
  else if id = -5 then some ("_uid_ses." ++ toString c.uid.toNat)
  else none

/-- The keyring that a number stands for, 0 where there is none yet. -/
def State.specialKey (c : Caller) (s : State) (task : Task) (id : Int) (name : String) : Nat :=
  if id = -1 then task.thread
  else if id = -2 then task.process
  else if id = -3 then task.session
  else
    match findEntry s.keys fun k =>
      k.ns == c.ns && k.name == name && k.kind == "keyring" && !k.revoked with
    | some (id, _) => id
    | none => 0

def Task.install (task : Task) (id : Int) (new : Nat) : Task :=
  if id = -1 then { task with thread := new }
  else if id = -2 then { task with process := new }
  else if id = -3 then { task with session := new }
  else task

def State.special (c : Caller) (s : State) (task : Task) (id : Int) (create : Bool) :
    Except Int (Nat × State × Task) :=
  if id > 0 then
    match s.live c.now id.toNat with
    | .error e => .error e
    | .ok _ => .ok (id.toNat, s, task)
  else
    match specialName c id with
    | none => .error ENOKEY
    | some name =>
      if s.specialKey c task id name ≠ 0 then
        match s.live c.now (s.specialKey c task id name) with
        | .error e => .error e
        | .ok _ => .ok (s.specialKey c task id name, s, task)
      else if !create then .error ENOKEY
      else
        match s.create c "keyring" name [] with
        | .error e => .error e
        | .ok (new, s) => .ok (new, s, task.install id new)

/-- The key has this type and description. -/
def State.named (s : State) (kind name : String) (id : Nat) : Bool :=
  match s.keys[id]? with
  | some k => k.kind == kind && k.name == name
  | none => false

def State.addLink (s : State) (ring id : Nat) : State :=
  { s with keys := s.keys.modify ring fun k => { k with links := k.links ++ [id] } }

def State.link (c : Caller) (s : State) (task : Task) (id ring : Nat) : Except Int State := do
  s.permission c task id 16
  s.permission c task ring 4
  let r ← s.live c.now ring
  if r.kind != "keyring" then .error ENOTDIR
  else if s.finds c.now id ring then .error EDEADLK
  else
    let key ← s.live c.now id
    let r ← s.live c.now ring
    let replaced := r.links.filter (s.named key.kind key.name)
    let dropped : State :=
      { s with
        keys := s.keys.modify ring fun k =>
          { k with links := k.links.filter fun other => !replaced.contains other } }
    .ok (dropped.addLink ring id)

/-! ## System calls -/

def State.join (c : Caller) (s : State) (task : Task) (name : Option String) :
    Except Int (Nat × State × Task) :=
  if name.any fun name => name.toList.head? == some '.' then .error EPERM
  else
    let found := name.bind fun name =>
      s.keys.toList.find? fun (id, k) =>
        k.ns == c.ns && k.name == name && k.kind == "keyring" && !k.revoked &&
          (s.permission c task id 8).isOk
    match found with
    | some (id, _) => .ok (id, s, { task with session := id })
    | none =>
      match s.create c "keyring" (name.getD "_ses") [] with
      | .error e => .error e
      | .ok (id, s) => .ok (id, s, { task with session := id })

def State.setData (s : State) (id : Nat) (data : List (BitVec 8)) : State :=
  { s with keys := s.keys.modify id fun k => { k with data } }

def State.add (c : Caller) (s : State) (task : Task) (kind name : String)
    (data : List (BitVec 8)) (ring : Int) : Except Int (Nat × State × Task) := do
  let (ring, s, task) ← s.special c task ring true
  s.permission c task ring 4
  let r ← s.live c.now ring
  if r.kind != "keyring" then .error ENOTDIR
  else
    match r.links.find? (s.named kind name) with
    | some id =>
      s.permission c task id 4
      if data.length > 32767 then .error EINVAL else .ok (id, s.setData id data, task)
    | none =>
      let (id, s) ← s.create c kind name data
      .ok (id, s.addLink ring id, task)

/-- The scan of one ring's links: the key wanted, or the rings to look at. -/
def State.scan (c : Caller) (s : State) (task : Task) (kind name : String) :
    List Nat → List Nat → Except (Nat) (List Nat)
  | [], pending => .ok pending
  | id :: rest, pending =>
    match s.live c.now id with
    | .error _ => s.scan c task kind name rest pending
    | .ok k =>
      if k.kind == kind && k.name == name && (s.permission c task id 8).isOk then .error id
      else s.scan c task kind name rest (if k.kind == "keyring" then id :: pending else pending)

/-- The loop of `search`.  No ring is looked at twice, so that the links bound its steps. -/
def State.searchLoop (c : Caller) (s : State) (task : Task) (kind name : String) :
    Nat → List Nat → List Nat → Except Int Nat
  | 0, _, _ => .error ENOKEY
  | _, [], _ => .error ENOKEY
  | fuel + 1, ring :: pending, seen =>
    if seen.contains ring then s.searchLoop c task kind name fuel pending seen
    else if seen.length + 1 > 1024 || !(s.permission c task ring 8).isOk then
      s.searchLoop c task kind name fuel pending (ring :: seen)
    else
      match s.live c.now ring with
      | .error e => .error e
      | .ok k =>
        match s.scan c task kind name k.links pending with
        | .error id => .ok id
        | .ok pending => s.searchLoop c task kind name fuel pending (ring :: seen)

def State.search (c : Caller) (s : State) (task : Task) (ring : Int) (kind name : String)
    (destination : Int) : Except Int (Nat × State × Task) := do
  let (root, s, task) ← s.special c task ring false
  s.permission c task root 8
  let r ← s.live c.now root
  if r.kind != "keyring" then .error ENOTDIR
  else
    let id ← s.searchLoop c task kind name (2 + total s.keys fun k => k.links.length) [root] []
    if destination ≠ 0 then
      let (destination, s, task) ← s.special c task destination true
      let s ← s.link c task id destination
      .ok (id, s, task)
    else .ok (id, s, task)

inductive Command
  | getId (create : Bool)
  | update (data : List (BitVec 8))
  | revoke
  | invalidate
  | chown (uid gid : BitVec 32)
  | setPerm (perm : BitVec 64)
  | describe
  | clear
  | link (ring : Int)
  | unlink (ring : Int)
  | read
  | setTimeout (seconds : Nat)
  | getSecurity

/-- What a command needs of its key. -/
def Command.need : Command → BitVec 32
  | .describe | .getSecurity => 1
  | .read => 2
  | .update _ | .revoke | .clear | .unlink _ => 4
  | .chown _ _ | .setPerm _ | .setTimeout _ => 32
  | .link _ => 16
  | .invalidate => 8
  | .getId _ => 8

/-- What a command gives back. -/
inductive Reply
  | nothing
  | id (id : Nat)
  | description (kind : String) (uid gid perm : BitVec 32) (name : String)
  | links (ids : List Nat)
  | data (bytes : List (BitVec 8))
  | label

def State.setKey (s : State) (id : Nat) (f : Key → Key) : State :=
  { s with keys := s.keys.modify id f }

/-- `KEYCTL_REVOKE` and `KEYCTL_INVALIDATE`. -/
def Key.revoke (k : Key) : Key := { k with revoked := true, data := [], links := [] }

def State.chown (c : Caller) (s : State) (id : Nat) (uid gid : BitVec 32) : Except Int State := do
  let k ← s.live c.now id
  if ((uid ≠ -1 ∧ uid ≠ k.uid) ∨ (gid ≠ -1 ∧ !c.member gid)) ∧ !c.capable k.ns then .error EPERM
  else if c.uid ≠ k.uid ∧ !c.capable k.ns then .error EPERM
  else
    .ok (s.setKey id fun k =>
      { k with
        uid := if uid ≠ -1 then uid else k.uid
        gid := if gid ≠ -1 then gid else k.gid })

/-- The part of `command` after the permission was found. -/
def State.run (c : Caller) (s : State) (task : Task) (id : Nat) :
    Command → Except Int (Reply × State × Task)
  | .getId _ => .ok (.id id, s, task)
  | .update data => do
    let k ← s.live c.now id
    if k.kind == "keyring" then .error EOPNOTSUPP
    else if data.length > 32767 then .error EINVAL
    else .ok (.nothing, s.setData id data, task)
  | .revoke | .invalidate => .ok (.nothing, s.setKey id Key.revoke, task)
  | .chown uid gid => do
    let s ← s.chown c id uid gid
    .ok (.nothing, s, task)
  | .setPerm perm =>
    if perm &&& ~~~0x3f3f3f3f ≠ 0 then .error EINVAL
    else .ok (.nothing, s.setKey id fun k => { k with perm := perm.setWidth 32 }, task)
  | .describe => do
    let k ← s.live c.now id
    .ok (.description k.kind k.uid k.gid k.perm k.name, s, task)
  | .clear => do
    let k ← s.live c.now id
    if k.kind != "keyring" then .error ENOTDIR
    else .ok (.nothing, s.setKey id fun k => { k with links := [] }, task)
  | .link ring => do
    let (ring, s, task) ← s.special c task ring true
    let s ← s.link c task id ring
    .ok (.nothing, s, task)
  | .unlink ring => do
    let (ring, s, task) ← s.special c task ring false
    s.permission c task ring 4
    let k ← s.live c.now ring
    if k.kind != "keyring" then .error ENOTDIR
    else if !k.links.contains id then .error ENOENT
    else
      .ok (.nothing, s.setKey ring fun k => { k with links := k.links.filter (· != id) }, task)
  | .read => do
    let k ← s.live c.now id
    if k.kind == "logon" then .error EACCES
    else .ok (if k.kind == "keyring" then .links k.links else .data k.data, s, task)
  | .setTimeout seconds =>
    if seconds = 0 then .ok (.nothing, s.setKey id fun k => { k with expires := 0 }, task)
    else if c.now + seconds ≥ 2 ^ 64 then .error EINVAL
    else .ok (.nothing, s.setKey id fun k => { k with expires := c.now + seconds }, task)
  | .getSecurity => .ok (.label, s, task)

def State.command (c : Caller) (s : State) (task : Task) (id : Int) (op : Command) :
    Except Int (Reply × State × Task) := do
  let create := match op with
    | .getId create => create
    | _ => false
  let (id, s, task) ← s.special c task id create
  s.permission c task id op.need
  s.run c task id op

inductive Op
  | join (name : Option String)
  | add (kind name : String) (data : List (BitVec 8)) (ring : Int)
  | search (ring : Int) (kind name : String) (destination : Int)
  | command (id : Int) (op : Command)

structure Call where
  caller : Caller
  -- What the thread, its ancestors and restored processes left it with.
  task : Task
  op : Op

/-- What a call works out to. -/
def State.result (s : State) (call : Call) : Except Int State :=
  match call.op with
  | .join name => (s.join call.caller call.task name).map fun r => r.2.1
  | .add kind name data ring => (s.add call.caller call.task kind name data ring).map fun r => r.2.1
  | .search ring kind name destination =>
    (s.search call.caller call.task ring kind name destination).map fun r => r.2.1
  | .command id op => (s.command call.caller call.task id op).map fun r => r.2.1

/-- `transact`: a call that fails publishes nothing. -/
def State.step (s : State) (call : Call) : State :=
  match s.result call with
  | .ok s => s
  | .error _ => s

end Kinakaze.Keyring
