import Mathlib.Algebra.Ring.Nat
import Mathlib.Tactic.Common

/-!
# The fork mapping registry

The registry is a table of a fixed size whose first `count` entries are the live
mappings.  A new mapping takes its range from the mappings that are there: what is
left of each is trimmed in place, or split with its right part appended, and a
mapping that nothing is left of gives its place to the last one.
-/

namespace Kinakaze.Mappings

def MAX_MAPPINGS : Nat := 16 * 1024

structure SharedForkMapping where
  base : Nat
  len : Nat
  behavior : Nat
  /-- An ordinary reservation (0), a placeholder (1), a private section view (2) or a
  retained shared section (3). -/
  storage : Nat
  backingSlot : Nat
  /-- Byte offset of this fragment in its backing section. -/
  backingOffset : Nat
  viewProtection : Nat
  domain : Nat

def SharedForkMapping.default : SharedForkMapping := ⟨0, 0, 0, 0, 0, 0, 0, 0⟩

/-- Addition of 64-bit words, unless it overflows. -/
def checkedAdd (a b : Nat) : Option Nat := if a + b < 2 ^ 64 then some (a + b) else none

/-- The mapping is a view of a section, of which its offset is a part. -/
def SharedForkMapping.sectionView (mapping : SharedForkMapping) : Bool :=
  mapping.storage == 2 || mapping.storage == 3

variable (mapping : SharedForkMapping) (mappingEnd : Nat)

/-- Whether all that stays of the live mappings fits into the table, with the new one. -/
def preflight (capacity : Nat) : List SharedForkMapping → Nat → Bool
  | [], _ => true
  | existing :: rest, required =>
    match checkedAdd existing.base existing.len with
    | none => false
    | some existingEnd =>
      if existingEnd ≤ mapping.base ∨ mappingEnd ≤ existing.base then
        if required + 1 > capacity then false
        else preflight capacity rest (required + 1)
      else
        let required := required + (if existing.base < mapping.base then 1 else 0)
        let required := required + (if mappingEnd < existingEnd then 1 else 0)
        if existing.sectionView ∧ mappingEnd < existingEnd ∧
            checkedAdd existing.backingOffset (mappingEnd - existing.base) = none then false
        else if required > capacity then false
        else preflight capacity rest required

/-- A write into the table; `none` is a write past its end. -/
def store (mappings : List SharedForkMapping) (index : Nat) (entry : SharedForkMapping) :
    Option (List SharedForkMapping) :=
  if index < mappings.length then some (mappings.set index entry) else none

/-- The part of `existing` behind the new mapping; `none` where its offset overflows. -/
def rightPart (existing : SharedForkMapping) (existingEnd : Nat) : Option SharedForkMapping :=
  let right := { existing with base := mappingEnd, len := existingEnd - mappingEnd }
  if existing.sectionView then
    (checkedAdd existing.backingOffset (mappingEnd - existing.base)).map fun backingOffset =>
      { right with backingOffset }
  else some right

/-- The pass over the live mappings; `none` is a panic, on an index or an overflow. -/
def carveRange : Nat → List SharedForkMapping → Nat → Nat → Option (List SharedForkMapping × Nat)
  | fuel, mappings, index, live =>
    if index < live then
      match fuel with
      | 0 => none
      | fuel + 1 => do
        let existing ← mappings[index]?
        let existingEnd ← checkedAdd existing.base existing.len
        if existingEnd ≤ mapping.base ∨ mappingEnd ≤ existing.base then
          carveRange fuel mappings (index + 1) live
        else if existing.base < mapping.base then
          let left := { existing with len := mapping.base - existing.base }
          let mappings ← store mappings index left
          if mappingEnd < existingEnd then
            let right ← rightPart mappingEnd existing existingEnd
            let mappings ← store mappings live right
            carveRange fuel mappings (index + 1) (live + 1)
          else carveRange fuel mappings (index + 1) live
        else if mappingEnd < existingEnd then
          let right ← rightPart mappingEnd existing existingEnd
          let mappings ← store mappings index right
          carveRange fuel mappings (index + 1) live
        else
          let last ← mappings[live - 1]?
          let mappings ← store mappings index last
          let mappings ← store mappings (live - 1) .default
          carveRange fuel mappings index (live - 1)
    else some (mappings, live)

/-- Replaces an address interval in the fork mapping registry.  No mapping is split twice, so
twice as many turns as there are mappings are enough. -/
def replaceMappingRange (mappings : List SharedForkMapping) (count : Nat) :
    Option (Bool × List SharedForkMapping × Nat) :=
  match checkedAdd mapping.base mapping.len with
  | none => some (false, mappings, count)
  | some mappingEnd =>
    if mapping.base = 0 ∨ mapping.len = 0 ∨ count > mappings.length then
      some (false, mappings, count)
    else if preflight mapping mappingEnd mappings.length (mappings.take count) 1 = false then
      some (false, mappings, count)
    else do
      let (mappings, live) ← carveRange mapping mappingEnd (2 * count) mappings 0 count
      let mappings ← store mappings live mapping
      some (true, mappings, live + 1)

end Kinakaze.Mappings
