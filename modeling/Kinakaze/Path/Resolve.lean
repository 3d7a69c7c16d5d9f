import Mathlib.Tactic.Common

/-!
# Guest paths on the host

A guest path is resolved component by component below the system root.  Names that the
host would read as path syntax are escaped, and a symbolic link puts the components of
its target in front of those still to come.
-/

namespace Kinakaze.Path

abbrev Text := List Char

def MAX_SYMLINKS : Nat := 40

def ENOTDIR : Int := 20

inductive PathError where
  | interiorNul
  | tooManySymlinks
  | filesystem (errno : Int)

/-! ## Host paths -/

def isSeparator (c : Char) : Bool := c = '\\' || c = '/'

def isAlphabetic (c : Char) : Bool := ('a' ≤ c && c ≤ 'z') || ('A' ≤ c && c ≤ 'Z')

/-- A Windows path: its prefix, empty if it has none, whether a root follows, and its
components. -/
structure HostPath where
  volume : Text
  rooted : Bool
  components : List Text
  deriving DecidableEq

/-- The components of a path without prefix.  Empty ones and `.` do not count. -/
def hostComponents (text : Text) : List Text :=
  (text.splitOnP isSeparator).filter fun part => part ≠ [] ∧ part ≠ ['.']

/-- The path has a root in front of its components. -/
def startsRooted (text : Text) : Bool := text.head?.any isSeparator

/-- A drive `X:`, or the server and share behind two separators; and the rest. -/
def splitPrefix : Text → Option (Text × Text)
  | a :: b :: rest =>
    if isAlphabetic a && b = ':' then some ([a, b], rest)
    else if isSeparator a && isSeparator b then
      let server := rest.takeWhile fun c => !isSeparator c
      let behind := (rest.dropWhile fun c => !isSeparator c).drop 1
      let share := behind.takeWhile fun c => !isSeparator c
      if server = [] ∨ share = [] then none
      else some (a :: b :: server ++ '\\' :: share, behind.dropWhile fun c => !isSeparator c)
    else none
  | _ => none

/-- `Path::new`. -/
def HostPath.parse (text : Text) : HostPath :=
  match splitPrefix text with
  | some (volume, rest) => ⟨volume, startsRooted rest, hostComponents rest⟩
  | none => ⟨[], startsRooted text, hostComponents text⟩

/-- `PathBuf::push`: a path with a prefix replaces the old one, a rooted path replaces
all but its prefix. -/
def HostPath.push (path : HostPath) (text : Text) : HostPath :=
  let pushed := parse text
  if pushed.volume ≠ [] then pushed
  else if pushed.rooted then { path with rooted := true, components := pushed.components }
  else { path with components := path.components ++ pushed.components }

def HostPath.pop (path : HostPath) : HostPath :=
  { path with components := path.components.dropLast }

/-! ## Escaping -/

def ESCAPE_BASE : Nat := 0xF000

/-- Windows refuses the character anywhere in a name. -/
def isReserved (c : Char) : Bool :=
  ['<', '>', ':', '"', '|', '?', '*', '\\'].contains c || c.toNat < 0x20

/-- Windows strips the character at the end of a name. -/
def isReservedAtEnd (c : Char) : Bool := c = '.' || c = ' '

/-- A character that is escaped, or not when that leads outside of Unicode. -/
def escapeChar (c : Char) : Char :=
  if (ESCAPE_BASE + c.toNat).isValidChar then .ofNat (ESCAPE_BASE + c.toNat) else c

/-- The loop of `escape_component`, which looks ahead for the last character. -/
def escapeChars : Text → Text
  | [] => []
  | c :: rest =>
    (if isReserved c || rest.isEmpty && isReservedAtEnd c then escapeChar c else c) ::
      escapeChars rest

def escapeComponent (component : Text) : Text :=
  if !component.getLast?.any isReservedAtEnd && !component.any isReserved then component
  else escapeChars component

/-! ## Resolution -/

/-- The guest components of a path. -/
def guestComponents (text : Text) : List Text :=
  (text.splitOnP fun c => c = '/').filter fun part => part ≠ []

/-- What the host knows about paths: the target of a symbolic link, or an error; and
which paths name something that is not a directory. -/
structure Host where
  link : HostPath → Except Int (Option Text)
  nondirectory : HostPath → Bool

def Host.symlinkComponent (host : Host) (path : HostPath) (mustBeDirectory : Bool) :
    Except Int (Option Text) :=
  match host.link path with
  | .error e => .error e
  | .ok (some target) => .ok (some target)
  | .ok none =>
    if mustBeDirectory && host.nondirectory path then .error ENOTDIR else .ok none

def driveLetter : Text → Option Char
  | [letter] => if isAlphabetic letter then some letter else none
  | _ => none

/-- `X:\`. -/
def drivePath (letter : Char) : HostPath := ⟨[letter.toUpper, ':'], true, []⟩

/-- How far the resolution is, and how many components that is below the selected root. -/
structure Place where
  resolved : HostPath
  depth : Nat

def Place.pushComponent (place : Place) (component : Text) : Place :=
  if component = ['.'] then place
  else if component = ['.', '.'] then
    if place.depth ≠ 0 then ⟨place.resolved.pop, place.depth - 1⟩ else place
  else ⟨place.resolved.push (escapeComponent component), place.depth + 1⟩

/-- Take the selected drive, if drives are allowed, or the system root. -/
def selectRoot (root : HostPath) (allowDrives absolute : Bool) (components : List Text) :
    HostPath × List Text :=
  match (if absolute && allowDrives then components.head?.bind driveLetter else none) with
  | some letter => (drivePath letter, components.tail)
  | none => (root, components)

def isAbsolute (text : Text) : Bool := text.head? = some '/'

/-- Where a link leads and the components of its target: a relative target starts from
the link's parent, an absolute one from the root. -/
def Place.follow (place : Place) (root : HostPath) (allowDrives : Bool) (target : Text) :
    Place × List Text :=
  if isAbsolute target then
    let (resolved, components) := selectRoot root allowDrives true (guestComponents target)
    (⟨resolved, 0⟩, components)
  else (⟨place.resolved.pop, place.depth - 1⟩, guestComponents target)

/-- The loop over the pending components; its result is with the number of links that
were followed. -/
def resolveLoop (host : Host) (root : HostPath) (allowDrives followFinal : Bool)
    (followed : Nat) (pending : List Text) (place : Place) : Except PathError (Place × Nat) :=
  match pending with
  | [] => .ok (place, followed)
  | component :: pending =>
    let place := place.pushComponent component
    if !followFinal && pending.isEmpty then
      resolveLoop host root allowDrives followFinal followed pending place
    else
      match host.symlinkComponent place.resolved !pending.isEmpty with
      | .error e => .error (.filesystem e)
      | .ok none => resolveLoop host root allowDrives followFinal followed pending place
      | .ok (some target) =>
        if MAX_SYMLINKS < followed + 1 then .error .tooManySymlinks
        else if target.contains '\x00' then .error .interiorNul
        else
          let (place, components) := place.follow root allowDrives target
          resolveLoop host root allowDrives followFinal (followed + 1) (components ++ pending) place
  termination_by (MAX_SYMLINKS - followed, pending.length)
  decreasing_by
    · right
      simp
    · right
      simp
    · left
      omega

/-- `resolve_linux_path_components` in a process that is confined or not. -/
def resolveLinuxPathComponents (host : Host) (confined : Bool) (root : HostPath)
    (linuxPath : Text) (followFinal : Bool) : Except PathError (Place × Nat) :=
  if linuxPath.contains '\x00' then .error .interiorNul
  else
    let (resolved, pending) :=
      selectRoot root (!confined) (isAbsolute linuxPath) (guestComponents linuxPath)
    resolveLoop host root (!confined) followFinal 0 pending ⟨resolved, 0⟩

end Kinakaze.Path
