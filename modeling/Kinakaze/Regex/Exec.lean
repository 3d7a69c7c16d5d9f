import Kinakaze.Regex.Candidates
import Mathlib.Algebra.Ring.Int.Defs
import Mathlib.Algebra.Ring.Nat

/-!
# Regular expressions: the longest match

* `longest_iff`: the patterns and texts for which it does.
-/

namespace Kinakaze.Regex

open Kinakaze.Library

variable {p : CompiledPattern} {text : List Byte} {eflags : BitVec 32}

/-! ## The best candidate -/

theorem candidateOrder_gt {a b : Candidate} (h : candidateOrder a b = .gt) : b.1 ≤ a.1 := by
  unfold candidateOrder at h
  cases hcompare : compare a.1 b.1 with
  | lt =>
    rw [hcompare] at h
    cases h
  | eq => exact Nat.le_of_eq (Nat.compare_eq_eq.mp hcompare).symm
  | gt => exact Nat.le_of_lt (Nat.compare_eq_gt.mp hcompare)

theorem candidateOrder_not_gt {a b : Candidate} (h : candidateOrder a b ≠ .gt) : a.1 ≤ b.1 := by
  unfold candidateOrder at h
  cases hcompare : compare a.1 b.1 with
  | lt => exact Nat.le_of_lt (Nat.compare_eq_lt.mp hcompare)
  | eq => exact Nat.le_of_eq (Nat.compare_eq_eq.mp hcompare)
  | gt =>
    rw [hcompare] at h
    exact absurd rfl h

variable {states : List Candidate}

theorem bestCandidate_none : bestCandidate states = none ↔ states = [] := by
  cases states <;> simp [bestCandidate]

theorem bestFold_spec (states : List Candidate) (first : Candidate) :
    (states.foldl (fun best s => if candidateOrder best s = .gt then best else s) first) ∈
        first :: states ∧
      ∀ s ∈ first :: states,
        s.1 ≤ (states.foldl (fun best s => if candidateOrder best s = .gt then best else s) first).1 := by
  induction states generalizing first with
  | nil => simp
  | cons second rest ih =>
    rw [List.foldl_cons]
    obtain ⟨hmem, hmax⟩ := ih (if candidateOrder first second = .gt then first else second)
    generalize (rest.foldl (fun best s => if candidateOrder best s = .gt then best else s)
      (if candidateOrder first second = .gt then first else second)) = best at hmem hmax ⊢
    have hfirst := hmax _ List.mem_cons_self
    have hrest : ∀ s ∈ rest, s.1 ≤ best.1 := fun s hs => hmax s (List.mem_cons_of_mem _ hs)
    simp only [List.mem_cons, forall_eq_or_imp]
    by_cases hgt : candidateOrder first second = .gt
    · rw [if_pos hgt] at hmem hfirst
      have hsecond := candidateOrder_gt hgt
      refine ⟨?_, hfirst, by omega, hrest⟩
      exact (List.mem_cons.mp hmem).imp_right .inr
    · rw [if_neg hgt] at hmem hfirst
      have hle := candidateOrder_not_gt hgt
      exact ⟨.inr (List.mem_cons.mp hmem), by omega, hfirst, hrest⟩

theorem bestCandidate_some {best : Candidate}
    (h : bestCandidate states = some best) : best ∈ states ∧ ∀ s ∈ states, s.1 ≤ best.1 := by
  cases states with
  | nil => cases h
  | cons first rest =>
    obtain rfl := Option.some.inj h
    exact bestFold_spec rest first

/-! ## Matching at a place -/

/-- `stop` is the greatest end of a match at `start`, by the relation `R`. -/
def Greatest (R : Nat → Nat → Prop) (start stop : Nat) : Prop :=
  R start stop ∧ ∀ e, R start e → e ≤ stop

variable {start nmatch stop : Nat}

theorem Greatest.unique {R : Nat → Nat → Prop} {e e' : Nat} (h : Greatest R start e)
    (h' : Greatest R start e') : e = e' := Nat.le_antisymm (h'.2 e h.1) (h.2 e' h'.1)

/-- The overall match, and the groups within it. -/
structure Reported (start stop : Nat) (captures : Captures) : Prop where
  overall : captures.head? = some ((start : Int), (stop : Int))
  groups : ∀ g ∈ captures, g = (-1, -1) ∨ (start : Int) ≤ g.1 ∧ g.1 ≤ g.2 ∧ g.2 ≤ (stop : Int)

theorem matchAt_none (hplain : Plain p.ast) (hstart : start ≤ text.length) :
    matchAt p text eflags start = none ↔ ∀ e, ¬ Reaches p text eflags p.ast start e := by
  unfold matchAt
  rw [Option.map_eq_none_iff, bestCandidate_none, List.eq_nil_iff_forall_not_mem]
  constructor
  · intro h e hreaches
    obtain ⟨s, hs, -⟩ := (candidates_iff p.ast hplain start _ e hstart).mpr hreaches
    exact h s hs
  · exact fun h s hs => h s.1 ((candidates_iff p.ast hplain start _ s.1 hstart).mp ⟨s, hs, rfl⟩)

variable {captures : Captures}

theorem matchAt_some (hplain : Plain p.ast) (hstart : start ≤ text.length)
    (h : matchAt p text eflags start = some captures) :
    ∃ stop, Greatest (Reaches p text eflags p.ast) start stop ∧ Reported start stop captures := by
  unfold matchAt at h
  rw [Option.map_eq_some_iff] at h
  obtain ⟨best, hbest, rfl⟩ := h
  obtain ⟨hmem, hmax⟩ := bestCandidate_some hbest
  have hends : ∀ e, EndsAt (matchCandidates p text eflags p.ast start
      (List.replicate (p.numGroups + 1) (-1, -1))) e ↔ Reaches p text eflags p.ast start e :=
    fun e => candidates_iff p.ast hplain start _ e hstart
  refine ⟨best.1, ⟨(hends best.1).mp ⟨best, hmem, rfl⟩, fun e hreaches => ?_⟩, ?_⟩
  · obtain ⟨s, hs, rfl⟩ := (hends e).mpr hreaches
    exact hmax s hs
  · have hinitial : Onward (p.numGroups + 1) start start
        (start, List.replicate (p.numGroups + 1) ((-1 : Int), (-1 : Int))) :=
      ⟨Nat.le_refl _, List.length_replicate, fun g hg => .inl (List.eq_of_mem_replicate hg)⟩
    have honward := candidates_onward p.ast start _ (Nat.le_refl _) hinitial best hmem
    constructor
    · have hlength := honward.length
      cases hcaptures : best.2 with
      | nil =>
        rw [hcaptures] at hlength
        cases hlength
      | cons first rest => rfl
    · intro g hg
      rcases List.mem_or_eq_of_mem_set hg with hold | rfl
      · exact honward.groups g hold
      · exact .inr ⟨Int.le_refl _, Int.ofNat_le.mpr honward.place, Int.le_refl _⟩

/-! ## Searching -/

/-- Whether the relation leads anywhere from `start`. -/
def Starts (R : Nat → Nat → Prop) (start : Nat) : Prop := ∃ stop, R start stop

theorem searchFrom_none (hplain : Plain p.ast) {fuel : Nat}
    (hfuel : start + fuel = text.length + 1) : searchFrom p text eflags fuel start = none ↔
      ∀ s, start ≤ s → s ≤ text.length → ¬ Starts (Reaches p text eflags p.ast) s := by
  induction fuel generalizing start with
  | zero =>
    refine ⟨fun _ s hlow hhigh => ?_, fun _ => rfl⟩
    omega
  | succ fuel ih =>
    have hnone : matchAt p text eflags start = none ↔ ∀ e, ¬ Reaches p text eflags p.ast start e :=
      matchAt_none hplain (by omega)
    unfold searchFrom
    cases hmatch : matchAt p text eflags start with
    | some captures =>
      refine ⟨fun h => (nomatch h), fun h => ?_⟩
      rw [hmatch] at hnone
      exact (nomatch hnone.mpr fun e he => h start (Nat.le_refl _) (by omega) ⟨e, he⟩)
    | none =>
      dsimp only
      rw [ih (by omega)]
      constructor
      · intro h s hlow hhigh
        by_cases hsame : s = start
        · rintro ⟨e, he⟩
          exact hnone.mp hmatch e (hsame ▸ he)
        · exact h s (by omega) hhigh
      · exact fun h s hlow hhigh => h s (by omega) hhigh

theorem searchFrom_some (hplain : Plain p.ast) {fuel : Nat} (hfuel : start + fuel = text.length + 1)
    {found : Nat × Captures} (h : searchFrom p text eflags fuel start = some found) :
    found.1 ≤ text.length ∧ matchAt p text eflags found.1 = some found.2 ∧
      ∀ s, start ≤ s → s < found.1 → ¬ Starts (Reaches p text eflags p.ast) s := by
  induction fuel generalizing start with
  | zero => cases h
  | succ fuel ih =>
    unfold searchFrom at h
    cases hmatch : matchAt p text eflags start with
    | some captures =>
      rw [hmatch] at h
      obtain rfl := Option.some.inj h
      exact ⟨by omega, hmatch, fun s hlow hless => absurd hless (Nat.not_lt.mpr hlow)⟩
    | none =>
      rw [hmatch] at h
      obtain ⟨hle, hfound, hbefore⟩ := ih (by omega) h
      refine ⟨hle, hfound, fun s hlow hless => ?_⟩
      by_cases hsame : s = start
      · rintro ⟨e, he⟩
        exact (matchAt_none hplain (by omega)).mp hmatch e (hsame ▸ he)
      · exact hbefore s (by omega) hless

/-! ## The claim of a search -/

/-- The leftmost place at which the relation starts. -/
def Leftmost (R : Nat → Nat → Prop) (start : Nat) : Prop := Starts R start ∧ ∀ s < start, ¬ Starts R s

/-- What a regular expression promises, of the matches `R` of the pattern: the enumeration finds
their ends, the greatest is taken, the leftmost is reported, and the groups are inside it. -/
structure Longest (p : CompiledPattern) (text : List Byte) (eflags : BitVec 32) (nmatch : Nat)
    (R : Nat → Nat → Prop) : Prop where
  ends : ∀ start captures stop, start ≤ text.length →
    (EndsAt (matchCandidates p text eflags p.ast start captures) stop ↔ R start stop)
  missed : ∀ start, start ≤ text.length → matchAt p text eflags start = none → ¬ Starts R start
  greatest : ∀ start captures, start ≤ text.length → matchAt p text eflags start = some captures →
      ∃ stop, Greatest R start stop ∧ Reported start stop captures
  unmatched : regexec p text eflags nmatch = none → ∀ start, start ≤ text.length → ¬ Starts R start
  matched : ∀ report, regexec p text eflags nmatch = some report →
    ∃ start stop, start ≤ text.length ∧ Leftmost R start ∧ Greatest R start stop ∧
      (report ≠ [] → Reported start stop report)

/-- The offsets of the match fit a `regoff_t`, if there is one and it is reported. -/
def OffsetsFit (p : CompiledPattern) (text : List Byte) (nmatch : Nat) (R : Nat → Nat → Prop) :
    Prop :=
  p.noSub = false → 0 < nmatch → ∀ start stop, start ≤ text.length → Leftmost R start →
    Greatest R start stop → stop < 2 ^ 31

theorem regoff_small {offset : Int} (hlow : -1 ≤ offset) (hhigh : offset < 2 ^ 31) :
    regoff offset = offset := by
  unfold regoff
  rw [BitVec.toInt_ofInt, Int.bmod_def]
  omega

theorem regoff_large {offset : Int} (h : 2 ^ 31 ≤ offset) : regoff offset ≠ offset := by
  unfold regoff
  rw [BitVec.toInt_ofInt, Int.bmod_def]
  split_ifs <;> omega

/-- What `regexec` writes for these captures. -/
def written (p : CompiledPattern) (nmatch : Nat) (captures : Captures) : List (Int × Int) :=
  if p.noSub then []
  else (List.range nmatch).map fun i =>
    match captures[i]? with
    | some (s, e) => (regoff s, regoff e)
    | none => (-1, -1)

theorem regexec_some (hplain : Plain p.ast) {report : List (Int × Int)}
    (h : regexec p text eflags nmatch = some report) :
    ∃ start stop captures, start ≤ text.length ∧ Leftmost (Reaches p text eflags p.ast) start ∧
      Greatest (Reaches p text eflags p.ast) start stop ∧ Reported start stop captures ∧
      report = written p nmatch captures := by
  unfold regexec at h
  rw [Option.map_eq_some_iff] at h
  obtain ⟨found, hsearch, hreport⟩ := h
  obtain ⟨hle, hmatch, hbefore⟩ := searchFrom_some hplain (Nat.zero_add _) hsearch
  obtain ⟨stop, hgreatest, hcaptures⟩ := matchAt_some hplain hle hmatch
  refine ⟨found.1, stop, found.2, hle, ⟨⟨stop, hgreatest.1⟩, fun s hless => hbefore s (Nat.zero_le _)
    hless⟩, hgreatest, hcaptures, ?_⟩
  have hsame : found.2.set 0 ((found.1 : Int), (found.2.getD 0 (-1, -1)).2) = found.2 := by
    have hhead := hcaptures.overall
    cases hlist : found.2 with
    | nil => rfl
    | cons first rest =>
      rw [hlist] at hhead
      obtain rfl := Option.some.inj hhead
      rfl
  dsimp only at hreport
  rw [hsame] at hreport
  exact hreport.symm

theorem regexec_none (hplain : Plain p.ast) : regexec p text eflags nmatch = none ↔
    ∀ start, start ≤ text.length → ¬ Starts (Reaches p text eflags p.ast) start := by
  unfold regexec
  rw [Option.map_eq_none_iff, searchFrom_none hplain (Nat.zero_add _)]
  exact ⟨fun h s => h s (Nat.zero_le _), fun h s _ => h s⟩

theorem written_head (h : Reported start stop captures) (hsub : p.noSub = false)
    (hnmatch : 0 < nmatch) :
    (written p nmatch captures).head? = some (regoff start, regoff stop) := by
  obtain ⟨n, rfl⟩ : ∃ n, nmatch = n + 1 := ⟨nmatch - 1, by omega⟩
  unfold written
  rw [if_neg (by rw [hsub]; exact Bool.false_ne_true), List.range_succ_eq_map, List.map_cons,
    List.head?_cons]
  have hfirst : captures[0]? = some ((start : Int), (stop : Int)) := by
    rw [← List.head?_eq_getElem?]
    exact h.overall
  rw [hfirst]

theorem written_nil (h : written p nmatch captures ≠ []) : p.noSub = false ∧ 0 < nmatch := by
  unfold written at h
  constructor
  · by_contra hsub
    rw [Bool.not_eq_false] at hsub
    rw [if_pos hsub] at h
    exact h rfl
  · refine Nat.pos_of_ne_zero fun hzero => ?_
    rw [hzero] at h
    split_ifs at h
    all_goals exact h rfl

theorem written_reported (h : Reported start stop captures) (hstop : stop < 2 ^ 31)
    (hnonempty : written p nmatch captures ≠ []) :
    Reported start stop (written p nmatch captures) := by
  obtain ⟨hsub, hnmatch⟩ := written_nil hnonempty
  have horder : (start : Int) ≤ (stop : Int) := by
    have hmem := List.mem_of_head? h.overall
    rcases h.groups _ hmem with hunset | ⟨-, hle, -⟩
    · have hneg := congrArg Prod.fst hunset
      dsimp only at hneg
      omega
    · exact hle
  constructor
  · rw [written_head h hsub hnmatch, regoff_small (by omega) (by omega),
      regoff_small (by omega) (by omega)]
  · intro g hg
    unfold written at hg
    rw [if_neg (by rw [hsub]; exact Bool.false_ne_true), List.mem_map] at hg
    obtain ⟨i, -, rfl⟩ := hg
    cases hread : captures[i]? with
    | none => exact .inl rfl
    | some group =>
      dsimp only
      rcases h.groups group (List.mem_of_getElem? hread) with rfl | ⟨hlow, hle, hhigh⟩
      · exact .inl (by decide)
      · rw [regoff_small (by omega) (by omega), regoff_small (by omega) (by omega)]
        exact .inr ⟨hlow, hle, hhigh⟩

theorem longest_reaches (hplain : Plain p.ast) :
    Longest p text eflags nmatch (Reaches p text eflags p.ast) ↔
      OffsetsFit p text nmatch (Reaches p text eflags p.ast) := by
  constructor
  · intro h hsub hnmatch start stop hstart hleft hgreatest
    cases hregexec : regexec p text eflags nmatch with
    | none => exact absurd hleft.1 (h.unmatched hregexec start hstart)
    | some report =>
      obtain ⟨start₁, stop₁, captures, hstart₁, hleft₁, hgreatest₁, hcaptures, rfl⟩ :=
        regexec_some hplain hregexec
      have hhead := written_head hcaptures hsub hnmatch
      obtain ⟨start₂, stop₂, hstart₂, hleft₂, hgreatest₂, hreported⟩ := h.matched _ hregexec
      have hsame : ∀ s t, Leftmost (Reaches p text eflags p.ast) s →
          Leftmost (Reaches p text eflags p.ast) t → s = t := by
        intro s t hs ht
        rcases Nat.lt_trichotomy s t with hless | hequal | hless
        · exact absurd hs.1 (ht.2 s hless)
        · exact hequal
        · exact absurd ht.1 (hs.2 t hless)
      obtain rfl := hsame start start₁ hleft hleft₁
      obtain rfl := hsame start start₂ hleft hleft₂
      obtain rfl := hgreatest.unique hgreatest₁
      obtain rfl := hgreatest.unique hgreatest₂
      have hnonempty : written p nmatch captures ≠ [] := by
        intro hnil
        rw [hnil] at hhead
        cases hhead
      have hoverall := (hreported hnonempty).overall
      rw [hhead] at hoverall
      have hstop : regoff stop = stop := congrArg Prod.snd (Option.some.inj hoverall)
      by_contra hlarge
      exact regoff_large (by omega) hstop
  · intro h
    refine ⟨fun start captures stop hstart => candidates_iff p.ast hplain start captures stop hstart,
      fun start hstart hnone => ?_, fun start captures hstart hsome => matchAt_some hplain hstart hsome,
      fun hnone => (regexec_none hplain).mp hnone, fun report hsome => ?_⟩
    · rintro ⟨e, he⟩
      exact (matchAt_none hplain hstart).mp hnone e he
    · obtain ⟨start, stop, captures, hstart, hleft, hgreatest, hcaptures, rfl⟩ :=
        regexec_some hplain hsome
      refine ⟨start, stop, hstart, hleft, hgreatest, fun hnonempty => ?_⟩
      obtain ⟨hsub, hnmatch⟩ := written_nil hnonempty
      exact written_reported hcaptures (h hsub hnmatch start stop hstart hleft hgreatest) hnonempty

theorem leftmost_congr {R S : Nat → Nat → Prop}
    (h : ∀ s ≤ start, ∀ e, R s e ↔ S s e) : Leftmost R start ↔ Leftmost S start := by
  have hstarts : ∀ s ≤ start, (Starts R s ↔ Starts S s) := fun s hs => exists_congr (h s hs)
  unfold Leftmost
  rw [hstarts start (Nat.le_refl _)]
  refine and_congr_right fun _ => forall₂_congr fun s hs => ?_
  rw [hstarts s (Nat.le_of_lt hs)]

theorem greatest_congr {R S : Nat → Nat → Prop} (h : ∀ e, R start e ↔ S start e) :
    Greatest R start stop ↔ Greatest S start stop := by
  unfold Greatest
  rw [h stop]
  exact and_congr_right fun _ => forall_congr' fun e => by rw [h e]

theorem Longest.congr {R S : Nat → Nat → Prop}
    (h : ∀ start ≤ text.length, ∀ e, R start e ↔ S start e) (hR : Longest p text eflags nmatch R) :
    Longest p text eflags nmatch S where
  ends start captures stop hstart := (hR.ends start captures stop hstart).trans (h start hstart stop)
  missed start hstart hnone := by
    rintro ⟨e, he⟩
    exact hR.missed start hstart hnone ⟨e, (h start hstart e).mpr he⟩
  greatest start captures hstart hsome := by
    obtain ⟨stop, hgreatest, hreported⟩ := hR.greatest start captures hstart hsome
    exact ⟨stop, (greatest_congr (h start hstart)).mp hgreatest, hreported⟩
  unmatched hnone start hstart := by
    rintro ⟨e, he⟩
    exact hR.unmatched hnone start hstart ⟨e, (h start hstart e).mpr he⟩
  matched report hsome := by
    obtain ⟨start, stop, hstart, hleft, hgreatest, hreported⟩ := hR.matched report hsome
    exact ⟨start, stop, hstart, (leftmost_congr fun s hs => h s (Nat.le_trans hs hstart)).mp hleft,
      (greatest_congr (h start hstart)).mp hgreatest, hreported⟩

theorem offsetsFit_congr {R S : Nat → Nat → Prop}
    (h : ∀ start ≤ text.length, ∀ e, R start e ↔ S start e) (hR : OffsetsFit p text nmatch R) :
    OffsetsFit p text nmatch S := by
  intro hsub hnmatch start stop hstart hleft hgreatest
  exact hR hsub hnmatch start stop hstart
    ((leftmost_congr fun s hs => h s (Nat.le_trans hs hstart)).mpr hleft)
    ((greatest_congr (h start hstart)).mpr hgreatest)

/-- Matching is leftmost and longest just when every match has one with the same ends in which no
iteration of a repetition consumes anything after one that consumed nothing, and the offsets fit. -/
theorem longest_iff (p : CompiledPattern) (text : List Byte) (eflags : BitVec 32) (nmatch : Nat)
    (hplain : Plain p.ast) :
    Longest p text eflags nmatch (Matches p text eflags p.ast) ↔
      (∀ start ≤ text.length, ∀ stop, Matches p text eflags p.ast start stop →
        Reaches p text eflags p.ast start stop) ∧
      OffsetsFit p text nmatch (Matches p text eflags p.ast) := by
  constructor
  · intro h
    have hsame : ∀ start ≤ text.length, ∀ e,
        Matches p text eflags p.ast start e ↔ Reaches p text eflags p.ast start e :=
      fun start hstart e => (h.ends start [] e hstart).symm.trans
        (candidates_iff p.ast hplain start [] e hstart)
    exact ⟨fun start hstart e => (hsame start hstart e).mp,
      offsetsFit_congr (fun start hstart e => (hsame start hstart e).symm)
        ((longest_reaches hplain).mp (h.congr hsame))⟩
  · rintro ⟨hall, hfit⟩
    have hsame : ∀ start ≤ text.length, ∀ e,
        Reaches p text eflags p.ast start e ↔ Matches p text eflags p.ast start e :=
      fun start hstart e => ⟨Reaches.matches p.ast hplain start e, hall start hstart e⟩
    exact ((longest_reaches hplain).mpr
      (offsetsFit_congr (fun start hstart e => (hsame start hstart e).symm) hfit)).congr hsame

/-- A concrete text: two letters. -/
def letters : List Byte := [0x61, 0x61]

/-- `(^|a){min,max}`. -/
def anchored (min : Nat) (max : Option Nat) : CompiledPattern where
  ast := .repeated (.group 1 (.alt [.startOfLine, .literal 0x61])) min max
  numGroups := 1
  icase := false
  newline := false
  noSub := false

theorem longest_iff_plus :
    Longest (anchored 1 none) letters 0 2 (Matches (anchored 1 none) letters 0 (anchored 1 none).ast) ∧
      regexec (anchored 1 none) letters 0 2 = some [(0, 2), (1, 2)] := by
  have hplain : Plain (anchored 1 none).ast := ⟨fun _ h => (nomatch h), trivial, trivial, trivial⟩
  have hsmall : Small (anchored 1 none).ast := ⟨Nat.le_refl _, trivial, trivial, trivial⟩
  refine ⟨(longest_iff (anchored 1 none) letters 0 2 hplain).mpr
    ⟨fun start _ stop => Matches.reaches _ hsmall start stop, ?_⟩, by decide +kernel⟩
  intro _ _ start stop hstart _ hgreatest
  have hbound := (reaches_bounds _ start stop (Matches.reaches _ hsmall start stop hgreatest.1)
    hstart).2
  exact Nat.lt_of_le_of_lt hbound (by decide)

/-- `(^|a){3}` matches two letters, the anchor being the first of three iterations; what is reported
is the empty match. -/
theorem anchored_misses : ¬ Longest (anchored 3 (some 3)) letters 0 2
        (Matches (anchored 3 (some 3)) letters 0 (anchored 3 (some 3)).ast) ∧
      regexec (anchored 3 (some 3)) letters 0 2 = some [(0, 0), (0, 0)] := by
  refine ⟨fun h => ?_, by decide +kernel⟩
  have hletter : ∀ pos < 2, Means (anchored 3 (some 3)) letters 0 Repeats
      (.group 1 (.alt [.startOfLine, .literal 0x61])) pos (pos + 1) := by
    intro pos hpos
    refine .inr (.inl ⟨0x61, ?_, by decide, rfl⟩)
    rcases (by omega : pos = 0 ∨ pos = 1) with rfl | rfl <;> rfl
  have hanchor : Means (anchored 3 (some 3)) letters 0 Repeats
      (.group 1 (.alt [.startOfLine, .literal 0x61])) 0 0 :=
    .inl ⟨.inl ⟨rfl, by decide⟩, rfl⟩
  have hmatches : Matches (anchored 3 (some 3)) letters 0 (anchored 3 (some 3)).ast 0 2 :=
    ⟨3, Nat.le_refl _, fun most hmost => Nat.le_of_eq (Option.some.inj hmost), 0, hanchor, 1,
      hletter 0 (by decide), 2, hletter 1 (by decide), rfl⟩
  have hends := (h.ends 0 [] 2 (by decide)).mpr hmatches
  have hmissed : ¬ ∃ s ∈ matchCandidates (anchored 3 (some 3)) letters 0
      (anchored 3 (some 3)).ast 0 [], s.1 = 2 := by
    decide +kernel
  exact hmissed hends

end Kinakaze.Regex
