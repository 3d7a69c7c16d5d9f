import Kinakaze.Library.Cycles
import Kinakaze.Regex.Pattern

/-!
# Regular expressions: what matches

* `candidates_iff`: the enumeration finds the places that are reached, and no others.
-/

namespace Kinakaze.Regex

open Kinakaze.Library

variable (p : CompiledPattern) (text : List Byte) (eflags : BitVec 32)

/-! ## Meaning -/

/-- The byte at `pos` is there and satisfies `accepts`, and the match ends behind it. -/
def Consumes (accepts : Byte → Prop) (pos stop : Nat) : Prop :=
  ∃ ch, text[pos]? = some ch ∧ accepts ch ∧ stop = pos + 1

/-- The start of the text, unless `REG_NOTBOL`, or of a line. -/
def AtStart (pos : Nat) : Prop :=
  pos = 0 ∧ eflags &&& REG_NOTBOL = 0 ∨ 0 < pos ∧ p.newline = true ∧ text[pos - 1]? = some 0x0a

/-- The end of the text, unless `REG_NOTEOL`, or of a line. -/
def AtEnd (pos : Nat) : Prop :=
  pos = text.length ∧ eflags &&& REG_NOTEOL = 0 ∨
    pos ≠ text.length ∧ p.newline = true ∧ text[pos]? = some 0x0a

/-- No more than `max` iterations. -/
def AtMost (max : Option Nat) (n : Nat) : Prop := ∀ most ∈ max, n ≤ most

/-- A repetition by its inner relation: any permitted number of iterations. -/
def Repeats (min : Nat) (max : Option Nat) (inner : Nat → Nat → Prop) (pos stop : Nat) : Prop :=
  ∃ n, min ≤ n ∧ AtMost max n ∧ Iterate inner n pos stop

/-- A repetition in which only the iterations at the end may consume nothing. -/
def RepeatsLate (min : Nat) (max : Option Nat) (inner : Nat → Nat → Prop) (pos stop : Nat) : Prop :=
  ∃ n, Iterate (Moving inner) n pos stop ∧
    (min ≤ n ∧ AtMost max n ∨ inner stop stop ∧ AtMost max (n + 1))

mutual

/-- The meaning of a pattern, for one meaning of repetition: from where to where it matches.  Back
references have none here. -/
def Means (repeats : Nat → Option Nat → (Nat → Nat → Prop) → Nat → Nat → Prop) :
    RegexAst → Nat → Nat → Prop
  | .empty, pos, stop => stop = pos
  | .literal lit, pos, stop => Consumes text (fun ch => matchesLiteral p lit ch = true) pos stop
  | .anyChar, pos, stop => Consumes text (fun ch => ¬ (p.newline = true ∧ ch = 0x0a)) pos stop
  | .startOfLine, pos, stop => AtStart p text eflags pos ∧ stop = pos
  | .endOfLine, pos, stop => AtEnd p text eflags pos ∧ stop = pos
  | .charClass set inverted, pos, stop =>
    Consumes text (fun ch => matchesClass p set inverted ch = true) pos stop
  | .backRef _, _, _ => False
  | .concat nodes, pos, stop => MeansAll repeats nodes pos stop
  | .alt branches, pos, stop => MeansAny repeats branches pos stop
  | .repeated inner min max, pos, stop => repeats min max (Means repeats inner) pos stop
  | .group _ inner, pos, stop => Means repeats inner pos stop

def MeansAll (repeats : Nat → Option Nat → (Nat → Nat → Prop) → Nat → Nat → Prop) :
    List RegexAst → Nat → Nat → Prop
  | [], pos, stop => stop = pos
  | node :: rest, pos, stop =>
    ∃ middle, Means repeats node pos middle ∧ MeansAll repeats rest middle stop

def MeansAny (repeats : Nat → Option Nat → (Nat → Nat → Prop) → Nat → Nat → Prop) :
    List RegexAst → Nat → Nat → Prop
  | [], _, _ => False
  | branch :: rest, pos, stop => Means repeats branch pos stop ∨ MeansAny repeats rest pos stop

end

/-- A match of the node starts at `pos` and ends at `stop`. -/
def Matches : RegexAst → Nat → Nat → Prop := Means p text eflags Repeats

/-- A match in which no iteration of a repetition consumes anything after one that did not. -/
def Reaches : RegexAst → Nat → Nat → Prop := Means p text eflags RepeatsLate

mutual

/-- No back references, and bounds of intervals in order. -/
def Plain : RegexAst → Prop
  | .backRef _ => False
  | .concat nodes => PlainAll nodes
  | .alt branches => PlainAll branches
  | .repeated inner min max => AtMost max min ∧ Plain inner
  | .group _ inner => Plain inner
  | _ => True

def PlainAll : List RegexAst → Prop
  | [] => True
  | node :: rest => Plain node ∧ PlainAll rest

end

/-- The node has no parts. -/
def RegexAst.simple : RegexAst → Bool
  | .concat _ => false
  | .alt _ => false
  | .repeated _ _ _ => false
  | .group _ _ => false
  | _ => true

/-- Induction over patterns, with the nodes of a list as parts. -/
theorem RegexAst.induct {P : RegexAst → Prop} (simple : ∀ node, node.simple = true → P node)
    (concat : ∀ nodes, (∀ node ∈ nodes, P node) → P (.concat nodes))
    (alt : ∀ branches, (∀ branch ∈ branches, P branch) → P (.alt branches))
    (repeated : ∀ inner min max, P inner → P (.repeated inner min max))
    (group : ∀ index inner, P inner → P (.group index inner)) (node : RegexAst) : P node :=
  RegexAst.rec (simple _ rfl) (fun _ => simple _ rfl) (simple _ rfl) (simple _ rfl) (simple _ rfl)
    (fun _ _ => simple _ rfl) (fun _ => simple _ rfl) concat alt repeated group
    nofun
    (fun _ _ hfirst hrest node h => by
      rcases List.mem_cons.mp h with rfl | hlater
      · exact hfirst
      · exact hrest node hlater)
    node

variable {p text eflags}

/-! ## Progress -/

variable {n pos stop : Nat} {length min : Nat} {R : Nat → Nat → Prop}

theorem iterate_bounds (h : ∀ pos stop, R pos stop → pos ≤ length → pos ≤ stop ∧ stop ≤ length)
    (hR : Iterate R n pos stop) (hpos : pos ≤ length) : pos ≤ stop ∧ stop ≤ length := by
  induction n generalizing pos with
  | zero =>
    obtain rfl : pos = stop := hR
    exact ⟨Nat.le_refl _, hpos⟩
  | succ n ih =>
    obtain ⟨middle, hstep, hrest⟩ := hR
    obtain ⟨hlow, hhigh⟩ := h pos middle hstep hpos
    obtain ⟨hlow', hhigh'⟩ := ih hrest hhigh
    exact ⟨Nat.le_trans hlow hlow', hhigh'⟩

theorem moving_bound (h : ∀ pos stop, R pos stop → pos ≤ length → pos ≤ stop ∧ stop ≤ length)
    (hR : Iterate (Moving R) n pos stop) (hpos : pos ≤ length) :
    pos + n ≤ stop ∧ stop ≤ length := by
  induction n generalizing pos with
  | zero =>
    obtain rfl : pos = stop := hR
    exact ⟨Nat.le_refl _, hpos⟩
  | succ n ih =>
    obtain ⟨middle, ⟨hstep, hmoved⟩, hrest⟩ := hR
    obtain ⟨hlow, hhigh⟩ := h pos middle hstep hpos
    obtain ⟨hlow', hhigh'⟩ := ih hrest hhigh
    omega

theorem consumes_bounds {accepts : Byte → Prop}
    (h : Consumes text accepts pos stop) : pos ≤ stop ∧ stop ≤ text.length := by
  obtain ⟨ch, hread, -, rfl⟩ := h
  have hless := (List.getElem?_eq_some_iff.mp hread).1
  omega

theorem reaches_bounds (node : RegexAst) : ∀ pos stop, Reaches p text eflags node pos stop →
    pos ≤ text.length → pos ≤ stop ∧ stop ≤ text.length := by
  induction node using RegexAst.induct with
  | simple node hsimple =>
    intro pos stop h hpos
    cases node with
    | empty =>
      obtain rfl : stop = pos := h
      exact ⟨Nat.le_refl _, hpos⟩
    | literal | anyChar | charClass => exact consumes_bounds h
    | startOfLine | endOfLine =>
      obtain rfl : stop = pos := h.2
      exact ⟨Nat.le_refl _, hpos⟩
    | backRef index => exact absurd h id
    | _ => cases hsimple
  | concat nodes ih =>
    intro pos stop h hpos
    have hall : MeansAll p text eflags RepeatsLate nodes pos stop := h
    clear h
    induction nodes generalizing pos with
    | nil =>
      obtain rfl : stop = pos := hall
      exact ⟨Nat.le_refl _, hpos⟩
    | cons node rest ihrest =>
      obtain ⟨middle, hnode, hrest⟩ := hall
      obtain ⟨hlow, hhigh⟩ := ih node List.mem_cons_self pos middle hnode hpos
      obtain ⟨hlow', hhigh'⟩ := ihrest (fun x hx => ih x (List.mem_cons_of_mem _ hx)) middle hhigh hrest
      exact ⟨Nat.le_trans hlow hlow', hhigh'⟩
  | alt branches ih =>
    intro pos stop h hpos
    have hany : MeansAny p text eflags RepeatsLate branches pos stop := h
    clear h
    induction branches with
    | nil => exact absurd hany id
    | cons branch rest ihrest =>
      rcases hany with hfirst | hlater
      · exact ih branch List.mem_cons_self pos stop hfirst hpos
      · exact ihrest (fun x hx => ih x (List.mem_cons_of_mem _ hx)) hlater
  | repeated inner min max ih =>
    intro pos stop h hpos
    obtain ⟨n, hiterate, -⟩ := h
    exact iterate_bounds ih (hiterate.mono fun _ _ h => h.1) hpos
  | group index inner ih => exact ih

/-! ## Reaching is matching -/

variable {max : Option Nat}

theorem atMost_of_le {m : Nat} (h : AtMost max n) (hle : m ≤ n) :
    AtMost max m := fun most hmost => Nat.le_trans hle (h most hmost)

theorem RepeatsLate.repeats {S : Nat → Nat → Prop} (hbounds : AtMost max min)
    (himp : ∀ pos stop, R pos stop → S pos stop)
    (h : RepeatsLate min max R pos stop) : Repeats min max S pos stop := by
  obtain ⟨n, hiterate, hend⟩ := h
  have hsteps : Iterate S n pos stop := hiterate.mono fun a b h => himp a b h.1
  rcases hend with ⟨hmin, hmax⟩ | ⟨hstay, hmax⟩
  · exact ⟨n, hmin, hmax, hsteps⟩
  by_cases hmin : min ≤ n
  · exact ⟨n, hmin, atMost_of_le hmax (Nat.le_succ n), hsteps⟩
  -- the last iterations stay, as many as the minimum asks for
  have hpadded := hsteps.add (iterate_stay (himp stop stop hstay) (min - n))
  rw [Nat.add_sub_cancel' (Nat.le_of_not_le hmin)] at hpadded
  exact ⟨min, Nat.le_refl _, hbounds, hpadded⟩

/-- One meaning of repetition in place of another, in the patterns that satisfy `P`. -/
theorem Means.mono {P : RegexAst → Prop}
    {repeats repeats' : Nat → Option Nat → (Nat → Nat → Prop) → Nat → Nat → Prop}
    (hconcat : ∀ nodes, P (.concat nodes) → ∀ node ∈ nodes, P node)
    (halt : ∀ branches, P (.alt branches) → ∀ branch ∈ branches, P branch)
    (hgroup : ∀ index inner, P (.group index inner) → P inner)
    (hinner : ∀ inner min max, P (.repeated inner min max) → P inner)
    (hrepeats : ∀ inner min max, P (.repeated inner min max) → ∀ R S : Nat → Nat → Prop,
      (∀ pos stop, R pos stop → S pos stop) →
      ∀ pos stop, repeats min max R pos stop → repeats' min max S pos stop)
    (node : RegexAst) (hnode : P node) : ∀ pos stop,
    Means p text eflags repeats node pos stop → Means p text eflags repeats' node pos stop := by
  induction node using RegexAst.induct with
  | simple node hsimple =>
    intro pos stop h
    cases node with
    | concat | alt | repeated | group => cases hsimple
    | _ => exact h
  | concat nodes ih =>
    intro pos stop h
    have hall : MeansAll p text eflags repeats nodes pos stop := h
    have hparts := hconcat nodes hnode
    show MeansAll p text eflags repeats' nodes pos stop
    clear h hnode
    induction nodes generalizing pos with
    | nil => exact hall
    | cons node rest ihrest =>
      obtain ⟨middle, hfirst, hrest⟩ := hall
      obtain ⟨hpart, hlater⟩ := List.forall_mem_cons.mp hparts
      exact ⟨middle, ih node List.mem_cons_self hpart pos middle hfirst,
        ihrest (fun x hx => ih x (List.mem_cons_of_mem _ hx)) middle hrest hlater⟩
  | alt branches ih =>
    intro pos stop h
    have hany : MeansAny p text eflags repeats branches pos stop := h
    have hparts := halt branches hnode
    show MeansAny p text eflags repeats' branches pos stop
    clear h hnode
    induction branches with
    | nil => exact hany
    | cons branch rest ihrest =>
      obtain ⟨hpart, hlater⟩ := List.forall_mem_cons.mp hparts
      rcases hany with hfirst | hrest
      · exact .inl (ih branch List.mem_cons_self hpart pos stop hfirst)
      · exact .inr (ihrest (fun x hx => ih x (List.mem_cons_of_mem _ hx)) hrest hlater)
  | repeated inner min max ih =>
    intro pos stop h
    exact hrepeats inner min max hnode _ _ (ih (hinner inner min max hnode)) pos stop h
  | group index inner ih => exact ih (hgroup index inner hnode)

variable {nodes : List RegexAst}

theorem plainAll_mem (h : PlainAll nodes) : ∀ node ∈ nodes, Plain node := by
  induction nodes with
  | nil => exact fun _ hnode => absurd hnode List.not_mem_nil
  | cons node rest ih => exact List.forall_mem_cons.mpr ⟨h.1, ih h.2⟩

theorem Reaches.matches (node : RegexAst) (hplain : Plain node) : ∀ pos stop,
    Reaches p text eflags node pos stop → Matches p text eflags node pos stop :=
  @Means.mono p text eflags Plain RepeatsLate Repeats (fun _ h => plainAll_mem h)
    (fun _ h => plainAll_mem h) (fun _ _ h => h)
    (fun _ _ _ h => h.2) (fun _ _ _ h _ _ himp _ _ => RepeatsLate.repeats h.1 himp) node hplain

/-! ## Patterns whose matches are all reached -/

mutual

/-- No interval asks for more than one iteration, as none of `*`, `+` and `?` does. -/
def Small : RegexAst → Prop
  | .concat nodes => SmallAll nodes
  | .alt branches => SmallAll branches
  | .repeated inner min _ => min ≤ 1 ∧ Small inner
  | .group _ inner => Small inner
  | _ => True

def SmallAll : List RegexAst → Prop
  | [] => True
  | node :: rest => Small node ∧ SmallAll rest

end

theorem Repeats.late {S : Nat → Nat → Prop} (hmin : min ≤ 1)
    (himp : ∀ pos stop, R pos stop → S pos stop)
    (h : Repeats min max R pos stop) : RepeatsLate min max S pos stop := by
  obtain ⟨n, hn, hmax, hiterate⟩ := h
  obtain ⟨k, hk, hmoving, hstay⟩ := (hiterate.mono himp).moving
  refine ⟨k, hmoving, ?_⟩
  by_cases hzero : k = 0
  · rcases hstay hzero with rfl | hstay
    · exact .inl ⟨by omega, atMost_of_le hmax hk⟩
    · by_cases hnone : n = 0
      · exact .inl ⟨by omega, atMost_of_le hmax hk⟩
      · exact .inr ⟨hstay, atMost_of_le hmax (by omega)⟩
  · exact .inl ⟨by omega, atMost_of_le hmax hk⟩

theorem smallAll_mem (h : SmallAll nodes) : ∀ node ∈ nodes, Small node := by
  induction nodes with
  | nil => exact fun _ hnode => absurd hnode List.not_mem_nil
  | cons node rest ih => exact List.forall_mem_cons.mpr ⟨h.1, ih h.2⟩

theorem Matches.reaches (node : RegexAst) (hsmall : Small node) : ∀ pos stop,
    Matches p text eflags node pos stop → Reaches p text eflags node pos stop :=
  @Means.mono p text eflags Small Repeats RepeatsLate (fun _ h => smallAll_mem h)
    (fun _ h => smallAll_mem h) (fun _ _ h => h)
    (fun _ _ _ h => h.2) (fun _ _ _ h _ _ himp _ _ => Repeats.late h.1 himp) node hsmall

end Kinakaze.Regex
