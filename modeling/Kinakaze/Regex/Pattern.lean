import Mathlib.Data.List.Dedup
import Mathlib.Data.List.Sort

/-!
# Regular expressions: the matcher

A pattern is matched by enumerating, for each of its parts, all the places where
a match that starts at a given place can end, each with the groups captured on the
way.  Of the ends of the whole pattern the greatest is taken.
-/

namespace Kinakaze.Regex

abbrev Byte := BitVec 8

def REG_NOTBOL : BitVec 32 := 1
def REG_NOTEOL : BitVec 32 := 2

inductive RegexAst where
  | empty
  | literal (lit : Byte)
  | anyChar
  | startOfLine
  | endOfLine
  | charClass (set : Byte → Bool) (inverted : Bool)
  | backRef (index : Nat)
  | concat (nodes : List RegexAst)
  | alt (branches : List RegexAst)
  /-- `max` is `none` for `usize::MAX`, which stands for unlimited. -/
  | repeated (inner : RegexAst) (min : Nat) (max : Option Nat)
  | group (index : Nat) (inner : RegexAst)

structure CompiledPattern where
  ast : RegexAst
  numGroups : Nat
  icase : Bool
  newline : Bool
  noSub : Bool

/-- Where each group starts and ends, `-1` where it has matched nothing. -/
abbrev Captures := List (Int × Int)

/-- A place, and what was captured on the way to it. -/
abbrev Candidate := Nat × Captures

/-! ## Single bytes -/

def toAsciiLowercase (byte : Byte) : Byte :=
  if 0x41 ≤ byte ∧ byte ≤ 0x5a then byte ||| 0x20 else byte

def toAsciiUppercase (byte : Byte) : Byte :=
  if 0x61 ≤ byte ∧ byte ≤ 0x7a then byte ^^^ 0x20 else byte

variable (p : CompiledPattern) (text : List Byte) (eflags : BitVec 32)

def matchesLiteral (lit ch : Byte) : Bool :=
  if p.icase then toAsciiLowercase ch == toAsciiLowercase lit else ch == lit

def matchesClass (set : Byte → Bool) (inverted : Bool) (ch : Byte) : Bool :=
  if inverted ∧ p.newline ∧ ch = 0x0a then false
  else
    let matched := if p.icase then set (toAsciiLowercase ch) || set (toAsciiUppercase ch) else set ch
    matched != inverted

/-- Bytes `start` up to `stop` of the text, if it has them. -/
def slice (start stop : Nat) : Option (List Byte) :=
  if start ≤ stop ∧ stop ≤ text.length then some ((text.take stop).drop start) else none

/-- What a node that is no compound matches at `pos`: where that ends. -/
def matchStep (node : RegexAst) (pos : Nat) (captures : Captures) : Option Nat :=
  match node with
  | .empty => some pos
  | .literal lit =>
    match text[pos]? with
    | none => none
    | some ch => if matchesLiteral p lit ch then some (pos + 1) else none
  | .anyChar =>
    match text[pos]? with
    | none => none
    | some ch => if p.newline ∧ ch = 0x0a then none else some (pos + 1)
  | .startOfLine =>
    if pos = 0 then if eflags &&& REG_NOTBOL = 0 then some pos else none
    else if p.newline ∧ text[pos - 1]? = some 0x0a then some pos
    else none
  | .endOfLine =>
    if pos = text.length then if eflags &&& REG_NOTEOL = 0 then some pos else none
    else if p.newline ∧ text[pos]? = some 0x0a then some pos
    else none
  | .backRef index =>
    match captures[index]? with
    | none => none
    | some (start, stop) =>
      if start < 0 ∨ stop < start then none
      else
        match slice text start.toNat stop.toNat with
        | none => none
        | some captured =>
          match slice text pos (pos + captured.length) with
          | none => none
          | some candidate =>
            let matched := if p.icase then
                captured.map toAsciiLowercase == candidate.map toAsciiLowercase
              else captured == candidate
            if matched then some (pos + captured.length) else none
  | .charClass set inverted =>
    match text[pos]? with
    | none => none
    | some ch => if matchesClass p set inverted ch then some (pos + 1) else none
  | _ => none

/-! ## Candidates -/

/-- The order of lists of captures, element by element. -/
def capturesLe : Captures → Captures → Bool
  | [], _ => true
  | _ :: _, [] => false
  | x :: xs, y :: ys =>
    if x.1 ≠ y.1 then decide (x.1 < y.1)
    else if x.2 ≠ y.2 then decide (x.2 < y.2)
    else capturesLe xs ys

def candidateLe (a b : Candidate) : Bool :=
  if a.1 ≠ b.1 then decide (a.1 < b.1) else capturesLe a.2 b.2

/-- Sorts the candidates and drops the repeated ones. -/
def dedupMatches (states : List Candidate) : List Candidate :=
  (states.insertionSort fun a b => candidateLe a b = true).dedup

/-- The levels of a repetition: each iteration goes on from the places that the one before it
reached by consuming something. -/
def repeatLevels (step : Nat → Captures → List Candidate) (min : Nat) :
    Nat → Nat → List Candidate → List Candidate → List Candidate
  | 0, _, _, accepted => accepted
  | remaining + 1, count, level, accepted =>
    let states := level.flatMap fun s => (step s.1 s.2).map fun state => (s.1, state)
    -- an empty iteration pads the minimum
    let accepted := accepted ++ (states.filter fun s => s.2.1 == s.1 || decide (min ≤ count)).map Prod.snd
    let next := dedupMatches ((states.filter fun s => s.2.1 != s.1).map Prod.snd)
    if next.isEmpty then accepted
    else repeatLevels step min remaining (count + 1) next accepted

mutual

/-- The candidates for where a match of `node` at `pos` ends. -/
def matchCandidates : RegexAst → Nat → Captures → List Candidate
  | .concat nodes, pos, captures => dedupMatches (matchConcat nodes [(pos, captures)])
  | .alt branches, pos, captures => dedupMatches (matchAlt branches pos captures)
  | .group index inner, pos, captures =>
    dedupMatches ((matchCandidates inner pos captures).map fun s =>
      (s.1, s.2.set index ((pos : Int), (s.1 : Int))))
  | .repeated inner min max, pos, captures =>
    let accepted := if min = 0 then [(pos, captures)] else []
    let most := match max with
      | none => text.length - pos + 1
      | some max => Nat.min max (text.length - pos + 1)
    dedupMatches (repeatLevels (fun place captures => matchCandidates inner place captures) min most 1
      [(pos, captures)] accepted)
  | node, pos, captures =>
    dedupMatches ((matchStep p text eflags node pos captures).toList.map fun stop => (stop, captures))

def matchConcat : List RegexAst → List Candidate → List Candidate
  | [], states => states
  | node :: rest, states =>
    let states := dedupMatches (states.flatMap fun s => matchCandidates node s.1 s.2)
    if states.isEmpty then states else matchConcat rest states

def matchAlt : List RegexAst → Nat → Captures → List Candidate
  | [], _, _ => []
  | branch :: rest, pos, captures => matchCandidates branch pos captures ++ matchAlt rest pos captures

end

/-! ## The best match -/

def captureOrderFrom : List ((Int × Int) × (Int × Int)) → Ordering
  | [] => .eq
  | ((ls, le), (rs, re)) :: rest =>
    let order := (compare (decide (0 ≤ ls)) (decide (0 ≤ rs))).then
      ((compare (le - ls) (re - rs)).then (compare rs ls))
    if order ≠ .eq then order else captureOrderFrom rest

def captureOrder (left right : Captures) : Ordering := captureOrderFrom ((left.zip right).drop 1)

def candidateOrder (a b : Candidate) : Ordering := (compare a.1 b.1).then (captureOrder a.2 b.2)

/-- The last of the greatest candidates. -/
def bestCandidate : List Candidate → Option Candidate
  | [] => none
  | first :: rest =>
    some (rest.foldl (fun best s => if candidateOrder best s = .gt then best else s) first)

def matchAt (start : Nat) : Option Captures :=
  let captures := List.replicate (p.numGroups + 1) (-1, -1)
  (bestCandidate (matchCandidates p text eflags p.ast start captures)).map fun best =>
    best.2.set 0 ((start : Int), (best.1 : Int))

/-- The first place, from `start` on, at which the pattern matches. -/
def searchFrom : Nat → Nat → Option (Nat × Captures)
  | 0, _ => none
  | fuel + 1, start =>
    match matchAt p text eflags start with
    | some captures => some (start, captures)
    | none => searchFrom fuel (start + 1)

/-- `regoff_t`: a C `int`. -/
def regoff (offset : Int) : Int := (BitVec.ofInt 32 offset).toInt

/-- `regexec`: `none` for no match, otherwise what it writes to `pmatch`, of which `nmatch` entries
are there to be written. -/
def regexec (nmatch : Nat) : Option (List (Int × Int)) :=
  (searchFrom p text eflags (text.length + 1) 0).map fun found =>
    let captures := found.2.set 0 ((found.1 : Int), (found.2.getD 0 (-1, -1)).2)
    if p.noSub then []
    else (List.range nmatch).map fun i =>
      match captures[i]? with
      | some (s, e) => (regoff s, regoff e)
      | none => (-1, -1)

end Kinakaze.Regex
