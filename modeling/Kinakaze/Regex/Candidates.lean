import Kinakaze.Regex.Reach

/-!
# Regular expressions: the enumeration

* `candidates_good`: the groups of a candidate lie in the match, in order.
-/

namespace Kinakaze.Regex

open Kinakaze.Library

variable {p : CompiledPattern} {text : List Byte} {eflags : BitVec 32} {states : List Candidate}

@[simp] theorem mem_dedupMatches {s : Candidate} :
    s ∈ dedupMatches states ↔ s ∈ states := by
  unfold dedupMatches
  rw [List.mem_dedup, List.mem_insertionSort]

/-- Some candidate ends at `stop`. -/
def EndsAt (states : List Candidate) (stop : Nat) : Prop := ∃ s ∈ states, s.1 = stop

variable {stop pos size start : Nat}

theorem endsAt_dedup : EndsAt (dedupMatches states) stop ↔ EndsAt states stop := by
  simp [EndsAt]

theorem endsAt_append {xs ys : List Candidate} :
    EndsAt (xs ++ ys) stop ↔ EndsAt xs stop ∨ EndsAt ys stop := by
  simp only [EndsAt, List.mem_append, or_and_right, exists_or]

/-! ## Repetition -/

variable {step : Nat → Captures → List Candidate}

theorem repeatLevels_iff {R : Nat → Nat → Prop}
    {length : Nat} (hstep : ∀ pos captures stop, pos ≤ length →
      (EndsAt (step pos captures) stop ↔ R pos stop))
    (hbounds : ∀ pos stop, R pos stop → pos ≤ length → pos ≤ stop ∧ stop ≤ length) {min : Nat}
    (remaining count : Nat) (level accepted : List Candidate) (hlevel : ∀ s ∈ level, s.1 ≤ length)
    (stop : Nat) :
    EndsAt (repeatLevels step min remaining count level accepted) stop ↔
      EndsAt accepted stop ∨ ∃ j < remaining, ∃ s ∈ level, ∃ middle,
        Iterate (Moving R) j s.1 middle ∧ R middle stop ∧ (stop = middle ∨ min ≤ count + j) := by
  induction remaining generalizing count level accepted with
  | zero => simp [repeatLevels]
  | succ remaining ih =>
    have hstates : ∀ place state, (place, state) ∈ (level.flatMap fun s =>
        (step s.1 s.2).map fun state => (s.1, state)) ↔
          ∃ s ∈ level, s.1 = place ∧ state ∈ step s.1 s.2 := by
      intro place state
      simp only [List.mem_flatMap, List.mem_map, Prod.mk.injEq]
      constructor
      · rintro ⟨s, hs, state', hstate, hplace, rfl⟩
        exact ⟨s, hs, hplace, hstate⟩
      · rintro ⟨s, hs, hplace, hstate⟩
        exact ⟨s, hs, state, hstate, hplace, rfl⟩
    have hstay : EndsAt (accepted ++ ((level.flatMap fun s =>
          (step s.1 s.2).map fun state => (s.1, state)).filter
            fun s => s.2.1 == s.1 || decide (min ≤ count)).map Prod.snd) stop ↔
        EndsAt accepted stop ∨ ∃ s ∈ level, R s.1 stop ∧ (stop = s.1 ∨ min ≤ count) := by
      rw [endsAt_append]
      refine or_congr_right ?_
      simp only [EndsAt, List.mem_map, List.mem_filter, Prod.exists, Bool.or_eq_true, beq_iff_eq,
        decide_eq_true_eq]
      constructor
      · rintro ⟨_, captures, ⟨place, end', captures', ⟨hmem, hkeep⟩, hsame⟩, rfl⟩
        cases hsame
        obtain ⟨s, hs, rfl, hstate⟩ := (hstates place (_, captures)).mp hmem
        exact ⟨s.1, s.2, hs, (hstep _ _ _ (hlevel s hs)).mp ⟨_, hstate, rfl⟩, hkeep⟩
      · rintro ⟨place, captures, hs, hR, hkeep⟩
        obtain ⟨state, hstate, rfl⟩ := (hstep place captures stop (hlevel _ hs)).mpr hR
        exact ⟨state.1, state.2, ⟨place, state.1, state.2,
          ⟨(hstates place state).mpr ⟨_, hs, rfl, hstate⟩, hkeep⟩, rfl⟩, rfl⟩
    have hnext : ∀ q, EndsAt (dedupMatches (((level.flatMap fun s =>
          (step s.1 s.2).map fun state => (s.1, state)).filter fun s => s.2.1 != s.1).map Prod.snd)) q ↔
        ∃ s ∈ level, Moving R s.1 q := by
      intro q
      rw [endsAt_dedup]
      simp only [EndsAt, List.mem_map, List.mem_filter, Prod.exists, bne_iff_ne, Moving]
      constructor
      · rintro ⟨_, captures, ⟨place, end', captures', ⟨hmem, hmoved⟩, hsame⟩, rfl⟩
        cases hsame
        obtain ⟨s, hs, rfl, hstate⟩ := (hstates place (_, captures)).mp hmem
        exact ⟨s.1, s.2, hs, (hstep _ _ _ (hlevel s hs)).mp ⟨_, hstate, rfl⟩, hmoved⟩
      · rintro ⟨place, captures, hs, hR, hmoved⟩
        obtain ⟨state, hstate, rfl⟩ := (hstep place captures q (hlevel _ hs)).mpr hR
        exact ⟨state.1, state.2, ⟨place, state.1, state.2,
          ⟨(hstates place state).mpr ⟨_, hs, rfl, hstate⟩, hmoved⟩, rfl⟩, rfl⟩
    unfold repeatLevels
    dsimp only
    generalize hnextEq : dedupMatches (((level.flatMap fun s =>
      (step s.1 s.2).map fun state => (s.1, state)).filter fun s => s.2.1 != s.1).map Prod.snd) = next
      at hnext ⊢
    -- the first iteration, and those that go on from where it moved to
    have hsplit : (∃ j < remaining + 1, ∃ s ∈ level, ∃ middle,
        Iterate (Moving R) j s.1 middle ∧ R middle stop ∧ (stop = middle ∨ min ≤ count + j)) ↔
        (∃ s ∈ level, R s.1 stop ∧ (stop = s.1 ∨ min ≤ count)) ∨
          ∃ j < remaining, ∃ s ∈ next, ∃ middle, Iterate (Moving R) j s.1 middle ∧
            R middle stop ∧ (stop = middle ∨ min ≤ count + 1 + j) := by
      constructor
      · rintro ⟨j, hj, s, hs, middle, hmoves, hlast, hkeep⟩
        cases j with
        | zero =>
          obtain rfl : s.1 = middle := hmoves
          exact .inl ⟨s, hs, hlast, hkeep⟩
        | succ j =>
          obtain ⟨q, hfirst, hrest⟩ := hmoves
          obtain ⟨t, ht, rfl⟩ := (hnext q).mpr ⟨s, hs, hfirst⟩
          refine .inr ⟨j, by omega, t, ht, middle, hrest, hlast, ?_⟩
          rw [Nat.add_assoc, Nat.add_comm 1]
          exact hkeep
      · rintro (⟨s, hs, hlast, hkeep⟩ | ⟨j, hj, t, ht, middle, hmoves, hlast, hkeep⟩)
        · exact ⟨0, Nat.succ_pos _, s, hs, s.1, rfl, hlast, hkeep⟩
        · obtain ⟨s, hs, hfirst⟩ := (hnext t.1).mp ⟨t, ht, rfl⟩
          refine ⟨j + 1, by omega, s, hs, middle, ⟨t.1, hfirst, hmoves⟩, hlast, ?_⟩
          rw [Nat.add_assoc, Nat.add_comm 1] at hkeep
          exact hkeep
    rw [hsplit]
    by_cases hempty : next.isEmpty = true
    · rw [if_pos hempty, hstay]
      obtain rfl := List.isEmpty_iff.mp hempty
      simp
    · rw [if_neg hempty, ih _ _ _ ?_, hstay, or_assoc]
      intro t ht
      obtain ⟨s, hs, hmoved⟩ := (hnext t.1).mp ⟨t, ht, rfl⟩
      exact (hbounds s.1 t.1 hmoved.1 (hlevel s hs)).2

/-! ## All nodes -/

variable {node : RegexAst}

theorem candidates_simple (hsimple : node.simple = true) (pos : Nat)
    (captures : Captures) : matchCandidates p text eflags node pos captures =
      dedupMatches ((matchStep p text eflags node pos captures).toList.map
        fun stop => (stop, captures)) := by
  cases node with
  | concat | alt | repeated | group => cases hsimple
  | _ => rw [matchCandidates] <;> simp

theorem consumes_iff {accepts : Byte → Bool} : (match text[pos]? with
      | none => none
      | some ch => if accepts ch then some (pos + 1) else none) = some stop ↔
      Consumes text (fun ch => accepts ch = true) pos stop := by
  unfold Consumes
  cases text[pos]? with
  | none => simp
  | some ch =>
    constructor
    · intro h
      dsimp only at h
      split_ifs at h with haccepts
      exact ⟨ch, rfl, haccepts, (Option.some.inj h).symm⟩
    · rintro ⟨_, hsame, haccepts, rfl⟩
      cases hsame
      dsimp only
      rw [if_pos haccepts]

variable {captures : Captures}

theorem matchStep_iff (hsimple : node.simple = true) (hplain : Plain node) :
    matchStep p text eflags node pos captures = some stop ↔
      Reaches p text eflags node pos stop := by
  cases node with
  | concat | alt | repeated | group => cases hsimple
  | backRef _ => exact absurd hplain id
  | empty =>
    show some pos = some stop ↔ stop = pos
    rw [Option.some_inj, eq_comm]
  | literal | charClass => exact consumes_iff
  | anyChar =>
    show _ ↔ Consumes text (fun ch => ¬ (p.newline = true ∧ ch = 0x0a)) pos stop
    unfold matchStep Consumes
    dsimp only
    cases text[pos]? with
    | none => simp
    | some ch =>
      constructor
      · intro h
        dsimp only at h
        split_ifs at h with hnewline
        exact ⟨ch, rfl, hnewline, (Option.some.inj h).symm⟩
      · rintro ⟨_, hsame, hnewline, rfl⟩
        cases hsame
        dsimp only
        rw [if_neg hnewline]
  | startOfLine =>
    show _ ↔ AtStart p text eflags pos ∧ stop = pos
    unfold matchStep AtStart
    dsimp only
    split_ifs with hzero hflag hline
    · exact ⟨fun h => ⟨.inl ⟨hzero, hflag⟩, (Option.some.inj h).symm⟩, fun h => by rw [h.2]⟩
    · refine ⟨fun h => (nomatch h), fun h => ?_⟩
      rcases h.1 with ⟨-, hflag'⟩ | ⟨hpos, -⟩
      · exact absurd hflag' hflag
      · omega
    · exact ⟨fun h => ⟨.inr ⟨Nat.pos_of_ne_zero hzero, hline⟩, (Option.some.inj h).symm⟩,
        fun h => by rw [h.2]⟩
    · refine ⟨fun h => (nomatch h), fun h => ?_⟩
      rcases h.1 with ⟨hzero', -⟩ | ⟨-, hline'⟩
      · exact absurd hzero' hzero
      · exact absurd hline' hline
  | endOfLine =>
    show _ ↔ AtEnd p text eflags pos ∧ stop = pos
    unfold matchStep AtEnd
    dsimp only
    split_ifs with hend hflag hline
    · exact ⟨fun h => ⟨.inl ⟨hend, hflag⟩, (Option.some.inj h).symm⟩, fun h => by rw [h.2]⟩
    · refine ⟨fun h => (nomatch h), fun h => ?_⟩
      rcases h.1 with ⟨-, hflag'⟩ | ⟨hpos, -⟩
      · exact absurd hflag' hflag
      · exact absurd hend hpos
    · exact ⟨fun h => ⟨.inr ⟨hend, hline⟩, (Option.some.inj h).symm⟩, fun h => by rw [h.2]⟩
    · refine ⟨fun h => (nomatch h), fun h => ?_⟩
      rcases h.1 with ⟨hend', -⟩ | ⟨-, hline'⟩
      · exact absurd hend' hend
      · exact absurd hline' hline

/-- How many iterations are tried. -/
def mostIterations (text : List Byte) (max : Option Nat) (pos : Nat) : Nat :=
  match max with
  | none => text.length - pos + 1
  | some max => Nat.min max (text.length - pos + 1)

theorem lt_mostIterations {max : Option Nat} {j : Nat} :
    j < mostIterations text max pos ↔ AtMost max (j + 1) ∧ j < text.length - pos + 1 := by
  unfold mostIterations AtMost
  cases max with
  | none => simp
  | some max =>
    have hmin : Nat.min max (text.length - pos + 1) = min max (text.length - pos + 1) := rfl
    simp only [hmin, Nat.lt_min, Option.mem_some_iff, forall_eq']
    rfl

theorem candidates_repeated (inner : RegexAst) (min : Nat) (max : Option Nat) (pos : Nat)
    (captures : Captures) : matchCandidates p text eflags (.repeated inner min max) pos captures =
      dedupMatches (repeatLevels (matchCandidates p text eflags inner) min
        (mostIterations text max pos) 1 [(pos, captures)]
        (if min = 0 then [(pos, captures)] else [])) := by
  unfold matchCandidates
  rfl

theorem candidates_iff (node : RegexAst) (hplain : Plain node) : ∀ pos captures stop,
    pos ≤ text.length → (EndsAt (matchCandidates p text eflags node pos captures) stop ↔
      Reaches p text eflags node pos stop) := by
  induction node using RegexAst.induct with
  | simple node hsimple =>
    intro pos captures stop _
    rw [candidates_simple hsimple, endsAt_dedup, ← matchStep_iff hsimple hplain]
    simp only [EndsAt, List.mem_map, Option.mem_toList]
    constructor
    · rintro ⟨_, ⟨_, hstep, rfl⟩, rfl⟩
      exact hstep
    · exact fun hstep => ⟨_, ⟨stop, hstep, rfl⟩, rfl⟩
  | concat nodes ih =>
    intro pos captures stop hpos
    have hparts : PlainAll nodes := hplain
    have hall : ∀ states : List Candidate, (∀ s ∈ states, s.1 ≤ text.length) →
        (EndsAt (matchConcat p text eflags nodes states) stop ↔
          ∃ s ∈ states, MeansAll p text eflags RepeatsLate nodes s.1 stop) := by
      clear hplain
      induction nodes with
      | nil =>
        intro states _
        rw [matchConcat]
        simp only [EndsAt, MeansAll, eq_comm]
      | cons node rest ihrest =>
        intro states hstates
        have hnext : ∀ q, EndsAt (dedupMatches (states.flatMap fun s =>
            matchCandidates p text eflags node s.1 s.2)) q ↔
              ∃ s ∈ states, Reaches p text eflags node s.1 q := by
          intro q
          rw [endsAt_dedup]
          simp only [EndsAt, List.mem_flatMap]
          constructor
          · rintro ⟨t, ⟨s, hs, ht⟩, rfl⟩
            exact ⟨s, hs, (ih node List.mem_cons_self hparts.1 _ _ _ (hstates s hs)).mp ⟨t, ht, rfl⟩⟩
          · rintro ⟨s, hs, hreaches⟩
            obtain ⟨t, ht, rfl⟩ :=
              (ih node List.mem_cons_self hparts.1 s.1 s.2 q (hstates s hs)).mpr hreaches
            exact ⟨t, ⟨s, hs, ht⟩, rfl⟩
        rw [matchConcat]
        generalize dedupMatches (states.flatMap fun s => matchCandidates p text eflags node s.1 s.2) =
          next at hnext ⊢
        have hsplit : (∃ s ∈ states, MeansAll p text eflags RepeatsLate (node :: rest) s.1 stop) ↔
            ∃ t ∈ next, MeansAll p text eflags RepeatsLate rest t.1 stop := by
          constructor
          · rintro ⟨s, hs, middle, hnode, hrest⟩
            obtain ⟨t, ht, rfl⟩ := (hnext middle).mpr ⟨s, hs, hnode⟩
            exact ⟨t, ht, hrest⟩
          · rintro ⟨t, ht, hrest⟩
            obtain ⟨s, hs, hnode⟩ := (hnext t.1).mp ⟨t, ht, rfl⟩
            exact ⟨s, hs, t.1, hnode, hrest⟩
        rw [hsplit]
        by_cases hempty : next.isEmpty = true
        · rw [if_pos hempty]
          obtain rfl := List.isEmpty_iff.mp hempty
          simp [EndsAt]
        · rw [if_neg hempty]
          refine ihrest (fun x hx => ih x (List.mem_cons_of_mem _ hx)) hparts.2 next fun t ht => ?_
          obtain ⟨s, hs, hnode⟩ := (hnext t.1).mp ⟨t, ht, rfl⟩
          exact (reaches_bounds node s.1 t.1 hnode (hstates s hs)).2
    rw [matchCandidates, endsAt_dedup, hall _ (fun s hs => by
      rw [List.mem_singleton.mp hs]
      exact hpos)]
    simp only [List.mem_singleton, exists_eq_left]
    rfl
  | alt branches ih =>
    intro pos captures stop hpos
    have hparts : PlainAll branches := hplain
    rw [matchCandidates, endsAt_dedup]
    show _ ↔ MeansAny p text eflags RepeatsLate branches pos stop
    clear hplain
    induction branches with
    | nil => simp [matchAlt, EndsAt, MeansAny]
    | cons branch rest ihrest =>
      rw [matchAlt, endsAt_append, MeansAny,
        ihrest (fun x hx => ih x (List.mem_cons_of_mem _ hx)) hparts.2]
      exact or_congr_left (ih branch List.mem_cons_self hparts.1 pos captures stop hpos)
  | repeated inner min max ih =>
    intro pos captures stop hpos
    have hlevel : ∀ s ∈ [(pos, captures)], s.1 ≤ text.length := fun s hs => by
      rw [List.mem_singleton.mp hs]
      exact hpos
    rw [candidates_repeated, endsAt_dedup,
      repeatLevels_iff (ih hplain.2) (reaches_bounds inner) _ _ _ _ hlevel]
    have haccepted : EndsAt (if min = 0 then [(pos, captures)] else []) stop ↔
        min = 0 ∧ pos = stop := by
      split_ifs with hmin <;> simp [EndsAt, hmin]
    rw [haccepted]
    simp only [List.mem_singleton, exists_eq_left]
    show _ ↔ RepeatsLate min max (Reaches p text eflags inner) pos stop
    constructor
    · rintro (⟨hmin, rfl⟩ | ⟨j, hj, middle, hmoves, hlast, hkeep⟩)
      · exact ⟨0, rfl, .inl ⟨Nat.le_of_eq hmin, fun _ _ => Nat.zero_le _⟩⟩
      · obtain ⟨hmax, -⟩ := lt_mostIterations.mp hj
        by_cases hstays : stop = middle
        · subst hstays
          exact ⟨j, hmoves, .inr ⟨hlast, hmax⟩⟩
        · have hmin := hkeep.resolve_left hstays
          exact ⟨j + 1, hmoves.snoc ⟨hlast, hstays⟩, .inl ⟨by omega, hmax⟩⟩
    · rintro ⟨n, hmoves, hend⟩
      have hbound := moving_bound (reaches_bounds inner) hmoves hpos
      rcases hend with ⟨hmin, hmax⟩ | ⟨hstays, hmax⟩
      · cases n with
        | zero => exact .inl ⟨Nat.le_zero.mp hmin, hmoves⟩
        | succ j =>
          obtain ⟨middle, hbefore, hlast, -⟩ := iterate_succ_right.mp hmoves
          exact .inr ⟨j, lt_mostIterations.mpr ⟨hmax, by omega⟩, middle, hbefore, hlast,
            .inr (by omega)⟩
      · exact .inr ⟨n, lt_mostIterations.mpr ⟨hmax, by omega⟩, stop, hmoves, hstays, .inl rfl⟩
  | group index inner ih =>
    intro pos captures stop hpos
    rw [matchCandidates, endsAt_dedup]
    show _ ↔ Reaches p text eflags inner pos stop
    rw [← ih hplain pos captures stop hpos]
    simp [EndsAt]

/-! ## Captures -/

/-- The candidate is at or behind `pos`, and each of its `size` groups is unset or lies between
`start` and it. -/
structure Onward (size start pos : Nat) (s : Candidate) : Prop where
  place : pos ≤ s.1
  length : s.2.length = size
  groups : ∀ g ∈ s.2, g = (-1, -1) ∨ (start : Int) ≤ g.1 ∧ g.1 ≤ g.2 ∧ g.2 ≤ (s.1 : Int)

theorem Onward.trans {s t : Candidate} (h : Onward size start pos s)
    (h' : Onward size start s.1 t) : Onward size start pos t :=
  ⟨Nat.le_trans h.place h'.place, h'.length, h'.groups⟩

theorem matchStep_le (h : matchStep p text eflags node pos captures = some stop) : pos ≤ stop := by
  unfold matchStep at h
  split at h
  all_goals repeat' split at h
  all_goals first
    | contradiction
    | (have hstop := Option.some.inj h; omega)
    | (dsimp only at h; split_ifs at h; have hstop := Option.some.inj h; omega)

theorem repeatLevels_onward (hstep : ∀ place captures, Onward size start pos (place, captures) →
      ∀ s ∈ step place captures, Onward size start place s) {min : Nat} (remaining count : Nat)
    (level accepted : List Candidate) (hlevel : ∀ s ∈ level, Onward size start pos s)
    (haccepted : ∀ s ∈ accepted, Onward size start pos s) :
    ∀ s ∈ repeatLevels step min remaining count level accepted, Onward size start pos s := by
  induction remaining generalizing count level accepted with
  | zero => exact haccepted
  | succ remaining ih =>
    have hstates : ∀ t ∈ (level.flatMap fun s => (step s.1 s.2).map fun state => (s.1, state)),
        Onward size start pos t.2 := by
      intro t ht
      simp only [List.mem_flatMap, List.mem_map] at ht
      obtain ⟨s, hs, state, hstate, rfl⟩ := ht
      exact (hlevel s hs).trans (hstep s.1 s.2 (hlevel s hs) state hstate)
    have hkept : ∀ keep : Nat × Candidate → Bool, ∀ s ∈ ((level.flatMap fun s =>
        (step s.1 s.2).map fun state => (s.1, state)).filter keep).map Prod.snd,
        Onward size start pos s := by
      intro keep s hs
      obtain ⟨t, ht, rfl⟩ := List.mem_map.mp hs
      exact hstates t (List.mem_filter.mp ht).1
    have haccepted' : ∀ keep : Nat × Candidate → Bool, ∀ s ∈ accepted ++ ((level.flatMap fun s =>
        (step s.1 s.2).map fun state => (s.1, state)).filter keep).map Prod.snd,
        Onward size start pos s := by
      intro keep s hs
      exact (List.mem_append.mp hs).elim (haccepted s) (hkept keep s)
    unfold repeatLevels
    dsimp only
    split
    · exact haccepted' _
    · exact ih _ _ _ (fun s hs => hkept _ s (mem_dedupMatches.mp hs)) (haccepted' _)

theorem candidates_onward (node : RegexAst) : ∀ pos captures, start ≤ pos →
    Onward size start pos (pos, captures) → ∀ s ∈ matchCandidates p text eflags node pos captures,
      Onward size start pos s := by
  induction node using RegexAst.induct with
  | simple node hsimple =>
    intro pos captures _ hgood s hs
    rw [candidates_simple hsimple, mem_dedupMatches, List.mem_map] at hs
    obtain ⟨stop, hstep, rfl⟩ := hs
    have hle := matchStep_le (Option.mem_toList.mp hstep)
    refine ⟨hle, hgood.length, fun g hg => (hgood.groups g hg).imp_right fun h => ⟨h.1, h.2.1, ?_⟩⟩
    have hbound : g.2 ≤ (pos : Int) := h.2.2
    exact Int.le_trans hbound (Int.ofNat_le.mpr hle)
  | concat nodes ih =>
    intro pos captures hstart hgood s hs
    have hall : ∀ states : List Candidate, (∀ t ∈ states, Onward size start pos t) →
        ∀ t ∈ matchConcat p text eflags nodes states, Onward size start pos t := by
      clear hs
      induction nodes with
      | nil =>
        intro states hstates
        rw [matchConcat]
        exact hstates
      | cons node rest ihrest =>
        intro states hstates
        have hnext : ∀ t ∈ dedupMatches (states.flatMap fun s =>
            matchCandidates p text eflags node s.1 s.2), Onward size start pos t := by
          intro t ht
          rw [mem_dedupMatches, List.mem_flatMap] at ht
          obtain ⟨r, hr, htr⟩ := ht
          exact (hstates r hr).trans (ih node List.mem_cons_self r.1 r.2
            (Nat.le_trans hstart (hstates r hr).place)
            ⟨Nat.le_refl _, (hstates r hr).length, (hstates r hr).groups⟩ t htr)
        rw [matchConcat]
        split
        · exact hnext
        · exact ihrest (fun x hx => ih x (List.mem_cons_of_mem _ hx)) _ hnext
    rw [matchCandidates, mem_dedupMatches] at hs
    exact hall _ (fun t ht => by rw [List.mem_singleton.mp ht]; exact hgood) s hs
  | alt branches ih =>
    intro pos captures hstart hgood s hs
    rw [matchCandidates, mem_dedupMatches] at hs
    induction branches with
    | nil =>
      rw [matchAlt] at hs
      cases hs
    | cons branch rest ihrest =>
      rw [matchAlt, List.mem_append] at hs
      rcases hs with hfirst | hlater
      · exact ih branch List.mem_cons_self pos captures hstart hgood s hfirst
      · exact ihrest (fun x hx => ih x (List.mem_cons_of_mem _ hx)) hlater
  | repeated inner min max ih =>
    intro pos captures hstart hgood s hs
    rw [candidates_repeated, mem_dedupMatches] at hs
    refine repeatLevels_onward (fun place captures hplace t ht => ?_) _ _ _ _ ?_ ?_ s hs
    · exact ih place captures (Nat.le_trans hstart hplace.place) ⟨Nat.le_refl _, hplace.length, hplace.groups⟩ t ht
    · intro t ht
      rw [List.mem_singleton.mp ht]
      exact hgood
    · intro t ht
      split_ifs at ht
      · rw [List.mem_singleton.mp ht]
        exact hgood
      · cases ht
  | group index inner ih =>
    intro pos captures hstart hgood s hs
    rw [matchCandidates, mem_dedupMatches, List.mem_map] at hs
    obtain ⟨t, ht, rfl⟩ := hs
    have honward := ih pos captures hstart hgood t ht
    refine ⟨honward.place, List.length_set.trans honward.length, fun g hg => ?_⟩
    rcases List.mem_or_eq_of_mem_set hg with hold | rfl
    · exact honward.groups g hold
    · have hplace := honward.place
      exact .inr ⟨Int.ofNat_le.mpr hstart, Int.ofNat_le.mpr hplace, Int.le_refl _⟩

end Kinakaze.Regex
