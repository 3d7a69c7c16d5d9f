import Mathlib.Algebra.Ring.Nat
import Mathlib.Data.List.Pairwise
import Mathlib.Tactic.Common

/-!
# Copying by spans

A copier reads a source and hands spans of it to a callback, one after another, until the
callback refuses one.
-/

namespace Kinakaze.Library

/-- A start and a length. -/
abbrev Span := Nat × Nat

/-- The span goes over the place. -/
def Span.Over (span : Span) (place : Nat) : Prop := span.1 ≤ place ∧ place < span.1 + span.2

/-- The lengths together. -/
def totalLength (spans : List Span) : Nat := (spans.map Prod.snd).sum

@[simp] theorem totalLength_nil : totalLength [] = 0 := rfl

@[simp] theorem totalLength_cons (span : Span) (spans : List Span) :
    totalLength (span :: spans) = span.2 + totalLength spans := List.sum_cons

/-! ## The spans of a region -/

/-- Ascending, disjoint and non-empty spans between `low` and `high`, over all the places there
that are `needed`. -/
structure Spans (needed : Nat → Prop) (low high : Nat) (spans : List Span) : Prop where
  nonempty : ∀ span ∈ spans, 0 < span.2
  ascending : spans.Pairwise fun a b => a.1 + a.2 ≤ b.1
  within : ∀ span ∈ spans, low ≤ span.1 ∧ span.1 + span.2 ≤ high
  covered : ∀ place, low ≤ place → place < high → needed place → ∃ span ∈ spans, span.Over place

variable {needed needed' : Nat → Prop} {low mid high : Nat} {spans later : List Span}

namespace Spans

theorem nil (h : ∀ place, low ≤ place → place < high → ¬ needed place) :
    Spans needed low high [] where
  nonempty := fun _ hspan => absurd hspan List.not_mem_nil
  ascending := List.Pairwise.nil
  within := fun _ hspan => absurd hspan List.not_mem_nil
  covered := fun place hlow hhigh hneeded => absurd hneeded (h place hlow hhigh)

theorem mono (h : Spans needed low high spans)
    (hneeded : ∀ place, low ≤ place → place < high → needed' place → needed place) :
    Spans needed' low high spans :=
  { h with covered := fun place hlow hhigh hplace =>
      h.covered place hlow hhigh (hneeded place hlow hhigh hplace) }

/-- Nothing is needed before `mid`. -/
theorem skip (h : Spans needed mid high spans) (hmid : low ≤ mid)
    (hnone : ∀ place, low ≤ place → place < mid → ¬ needed place) :
    Spans needed low high spans where
  nonempty := h.nonempty
  ascending := h.ascending
  within := fun span hspan => ⟨Nat.le_trans hmid (h.within span hspan).1, (h.within span hspan).2⟩
  covered := fun place hlow hhigh hneeded =>
    h.covered place (Nat.le_of_not_lt fun hlt => hnone place hlow hlt hneeded) hhigh hneeded

theorem append (h : Spans needed low mid spans) (hlater : Spans needed mid high later)
    (hlow : low ≤ mid) (hhigh : mid ≤ high) : Spans needed low high (spans ++ later) where
  nonempty := fun span hspan => (List.mem_append.mp hspan).elim (h.nonempty span)
    (hlater.nonempty span)
  ascending := by
    refine List.pairwise_append.mpr ⟨h.ascending, hlater.ascending, fun a ha b hb => ?_⟩
    exact Nat.le_trans (h.within a ha).2 (hlater.within b hb).1
  within := fun span hspan => by
    rcases List.mem_append.mp hspan with hfirst | hsecond
    · exact ⟨(h.within span hfirst).1, Nat.le_trans (h.within span hfirst).2 hhigh⟩
    · exact ⟨Nat.le_trans hlow (hlater.within span hsecond).1, (hlater.within span hsecond).2⟩
  covered := fun place hge hlt hneeded => by
    by_cases hplace : place < mid
    · obtain ⟨span, hspan, hover⟩ := h.covered place hge hplace hneeded
      exact ⟨span, List.mem_append_left _ hspan, hover⟩
    · obtain ⟨span, hspan, hover⟩ := hlater.covered place (Nat.le_of_not_lt hplace) hlt hneeded
      exact ⟨span, List.mem_append_right _ hspan, hover⟩

/-- One span, and nothing needed after it. -/
theorem single {start stop : Nat} (hstart : start < stop) (hlow : low ≤ start) (hhigh : stop ≤ high)
    (hneeded : ∀ place, low ≤ place → place < high → needed place → start ≤ place ∧ place < stop) :
    Spans needed low high [(start, stop - start)] where
  nonempty := fun span hspan => by
    obtain rfl := List.mem_singleton.mp hspan
    exact Nat.sub_pos_of_lt hstart
  ascending := List.pairwise_singleton _ _
  within := fun span hspan => by
    obtain rfl := List.mem_singleton.mp hspan
    dsimp only
    omega
  covered := fun place hge hlt hplace => by
    have hin := hneeded place hge hlt hplace
    refine ⟨_, List.mem_singleton_self _, ?_⟩
    unfold Span.Over
    dsimp only
    omega

end Spans

/-! ## An open run -/

/-- The place is needed, or in the run that is being collected. -/
def InRun (needed : Nat → Prop) (start stop place : Nat) : Prop :=
  needed place ∨ (start ≤ place ∧ place < stop)

/-- The spans that are still to come when `run`, from its start to its end so far, is being
collected, and everything before `offset` has been seen. -/
def SpansFrom (needed : Nat → Prop) (offset high : Nat) (run : Option (Nat × Nat))
    (spans : List Span) : Prop :=
  match run with
  | none => Spans needed offset high spans
  | some (start, stop) => Spans (InRun needed start stop) start high spans

/-- The run is not empty, and nothing is needed between its end and `offset`. -/
def RunTo (needed : Nat → Prop) (offset : Nat) (run : Option (Nat × Nat)) : Prop :=
  ∀ start stop, run = some (start, stop) → start < stop ∧ stop ≤ offset ∧
    ∀ place, stop ≤ place → place < offset → ¬ needed place

theorem runTo_none (offset : Nat) : RunTo needed offset none := nofun

theorem RunTo.mono {offset offset' : Nat} {run : Option (Nat × Nat)} (h : RunTo needed offset run)
    (hoffset : offset ≤ offset')
    (hnone : ∀ place, offset ≤ place → place < offset' → ¬ needed place) :
    RunTo needed offset' run := fun start stop hrun => by
  obtain ⟨hstart, hstop, hgap⟩ := h start stop hrun
  refine ⟨hstart, Nat.le_trans hstop hoffset, fun place hge hlt => ?_⟩
  by_cases hplace : place < offset
  · exact hgap place hge hplace
  · exact hnone place (Nat.le_of_not_lt hplace) hlt

section Run

variable {start stop stop' offset : Nat}

/-- A run that ends gives one span; the next ones begin later. -/
theorem SpansFrom.close (hrun : RunTo needed offset (some (start, stop))) (hlow : offset ≤ low)
    (hhigh : low ≤ high) (hnone : ∀ place, offset ≤ place → place < low → ¬ needed place)
    (hlater : Spans needed low high later) :
    SpansFrom needed offset high (some (start, stop)) ((start, stop - start) :: later) := by
  obtain ⟨hstart, hstop, hgap⟩ := (hrun.mono hlow hnone) start stop rfl
  have hsingle : Spans (InRun needed start stop) start low [(start, stop - start)] := by
    refine Spans.single hstart (Nat.le_refl _) hstop fun place hge hlt hneeded => ⟨hge, ?_⟩
    by_contra hplace
    rcases hneeded with hneeded | hin
    · exact hgap place (Nat.le_of_not_lt hplace) hlt hneeded
    · exact hplace hin.2
  have hrest : Spans (InRun needed start stop) low high later :=
    hlater.mono fun place hge _ hneeded => hneeded.resolve_right fun hin => by omega
  exact hsingle.append hrest (by omega) hhigh

/-- A run that begins: nothing before it is needed. -/
theorem SpansFrom.opened (h : SpansFrom needed offset high (some (start, stop)) spans)
    (hlow : low ≤ start) (hnone : ∀ place, low ≤ place → place < start → ¬ needed place) :
    Spans needed low high spans :=
  Spans.skip (Spans.mono h fun _ _ _ hneeded => .inl hneeded) hlow hnone

/-- A run that goes on. -/
theorem SpansFrom.extend (h : SpansFrom needed offset high (some (start, stop')) spans)
    (hstop : stop ≤ stop') : SpansFrom needed low high (some (start, stop)) spans :=
  Spans.mono h fun _ _ _ hneeded =>
    hneeded.imp_right fun hin => ⟨hin.1, Nat.lt_of_lt_of_le hin.2 hstop⟩

/-- Nothing is needed from one place seen to the next. -/
theorem SpansFrom.skip {offset' : Nat} {run : Option (Nat × Nat)}
    (h : SpansFrom needed offset' high run spans) (hoffset : offset ≤ offset')
    (hnone : ∀ place, offset ≤ place → place < offset' → ¬ needed place) :
    SpansFrom needed offset high run spans :=
  match run with
  | none => Spans.skip h hoffset hnone
  | some (_, _) => h

end Run

/-! ## A callback and what it was handed -/

section Performs

variable {σ ε α : Type}

/-- A callback that copies the span it is handed into the destination, unless it fails. -/
structure Copier (σ ε : Type) (source : Nat → α) where
  call : Nat → Nat → σ → Except ε Unit × σ
  dest : σ → Nat → α
  copies : ∀ start length s s', call start length s = (.ok (), s') →
    ∀ place, (Span.Over (start, length) place → dest s' place = source place) ∧
      (¬ Span.Over (start, length) place → dest s' place = dest s place)

/-- Hand over the spans in turn until one is refused; what was copied, and in how many calls. -/
def performs (call : Nat → Nat → σ → Except ε Unit × σ) :
    List Span → Nat × Nat → σ → Except ε (Nat × Nat) × σ
  | [], counts, s => (.ok counts, s)
  | span :: rest, counts, s =>
    match call span.1 span.2 s with
    | (.error e, s') => (.error e, s')
    | (.ok (), s') => performs call rest (counts.1 + span.2, counts.2 + 1) s'

/-- Every span was taken. -/
def Taken (call : Nat → Nat → σ → Except ε Unit × σ) : List Span → σ → σ → Prop
  | [], s, s' => s' = s
  | span :: rest, s, s' => ∃ s₁, call span.1 span.2 s = (.ok (), s₁) ∧ Taken call rest s₁ s'

variable {call : Nat → Nat → σ → Except ε Unit × σ}

theorem performs_cons (span : Span) (rest : List Span) (counts : Nat × Nat) (s : σ) :
    performs call (span :: rest) counts s = match call span.1 span.2 s with
      | (.error e, s') => (.error e, s')
      | (.ok (), s') => performs call rest (counts.1 + span.2, counts.2 + 1) s' := rfl

theorem performs_append (spans later : List Span) (counts : Nat × Nat) (s : σ) :
    performs call (spans ++ later) counts s = match performs call spans counts s with
      | (.error e, s') => (.error e, s')
      | (.ok counts', s') => performs call later counts' s' := by
  induction spans generalizing counts s with
  | nil => rfl
  | cons span rest ih =>
    rw [List.cons_append, performs_cons, performs_cons]
    rcases call span.1 span.2 s with ⟨_ | _, s'⟩
    · rfl
    · exact ih _ _

/-- What was counted before is only added to. -/
theorem performs_counts (spans : List Span) (counts more : Nat × Nat) (s : σ) :
    performs call spans (counts.1 + more.1, counts.2 + more.2) s =
      match performs call spans more s with
      | (.error e, s') => (.error e, s')
      | (.ok (copied, calls), s') => (.ok (counts.1 + copied, counts.2 + calls), s') := by
  induction spans generalizing more s with
  | nil => rfl
  | cons span rest ih =>
    rw [performs_cons, performs_cons]
    rcases call span.1 span.2 s with ⟨_ | _, s'⟩
    · rfl
    · have hrest := ih (more.1 + span.2, more.2 + 1) s'
      simpa only [Nat.add_assoc] using hrest

theorem performs_map_id (spans : List Span) (counts : Nat × Nat) (s : σ) :
    (performs call spans counts s).map (Except.map id) id = performs call spans counts s := by
  rcases performs call spans counts s with ⟨_ | _, s'⟩ <;> rfl

/-- Either every span is taken and counted, or those before the first refused one are. -/
theorem performs_ok_or_error (spans : List Span) (counts : Nat × Nat) (s : σ) :
    (∃ s', Taken call spans s s' ∧
      performs call spans counts s = (.ok (counts.1 + totalLength spans, counts.2 + spans.length), s')) ∨
    ∃ before refused after s₁ e s', spans = before ++ refused :: after ∧ Taken call before s s₁ ∧
      call refused.1 refused.2 s₁ = (.error e, s') ∧
      performs call spans counts s = (.error e, s') := by
  induction spans generalizing counts s with
  | nil => exact .inl ⟨s, rfl, rfl⟩
  | cons span rest ih =>
    rw [performs_cons]
    rcases hcall : call span.1 span.2 s with ⟨e | _, s₁⟩
    · exact .inr ⟨[], span, rest, s, e, s₁, rfl, rfl, hcall, rfl⟩
    dsimp only
    rcases ih (counts.1 + span.2, counts.2 + 1) s₁ with ⟨s', htaken, hrun⟩ |
      ⟨before, refused, after, s₂, e, s', rfl, htaken, hrefused, hrun⟩
    · refine .inl ⟨s', ⟨s₁, hcall, htaken⟩, ?_⟩
      rw [hrun, totalLength_cons, List.length_cons, Nat.add_assoc, Nat.add_assoc, Nat.add_comm 1]
    · exact .inr ⟨span :: before, refused, after, s₂, e, s', rfl, ⟨s₁, hcall, htaken⟩, hrefused, hrun⟩

variable {source : Nat → α} {copier : Copier σ ε source}

/-- The spans that were taken hold the source, and the rest of the destination is as it was. -/
theorem dest_of_taken {s s' : σ} (h : Taken copier.call spans s s') (place : Nat) :
    ((∃ span ∈ spans, span.Over place) → copier.dest s' place = source place) ∧
      ((¬ ∃ span ∈ spans, span.Over place) → copier.dest s' place = copier.dest s place) := by
  induction spans generalizing s with
  | nil =>
    obtain rfl := h
    exact ⟨fun ⟨_, hspan, _⟩ => absurd hspan List.not_mem_nil, fun _ => rfl⟩
  | cons span rest ih =>
    obtain ⟨s₁, hcall, hrest⟩ := h
    have hfirst := copier.copies _ _ _ _ hcall place
    obtain ⟨hin, hout⟩ := ih hrest
    constructor
    · rintro ⟨sp, hsp, hover⟩
      by_cases hlater : ∃ span ∈ rest, span.Over place
      · exact hin hlater
      rcases List.mem_cons.mp hsp with rfl | hmem
      · rw [hout hlater, hfirst.1 hover]
      · exact absurd ⟨sp, hmem, hover⟩ hlater
    · intro hnone
      have hlater : ¬ ∃ span ∈ rest, span.Over place :=
        fun ⟨sp, hsp, hover⟩ => hnone ⟨sp, List.mem_cons_of_mem _ hsp, hover⟩
      rw [hout hlater, hfirst.2 fun hover => hnone ⟨span, List.mem_cons_self, hover⟩]

/-! ## Copying all of a region -/

variable {ρ : Type}

/-- Run for any callback, `run` hands over these spans, and that copies the source from `low` to
`high` into a destination that starts as `initial`: it ends with all of them taken and reported, or
with the first refused one and those before it taken. -/
structure CopiesAll (source initial : Nat → α) (low high : Nat) (report : Nat × Nat → ρ)
    (run : ∀ {σ ε : Type}, (Nat → Nat → σ → Except ε Unit × σ) → σ → Option (Except ε ρ × σ))
    (spans : List Span) : Prop where
  nonempty : ∀ span ∈ spans, 0 < span.2
  ascending : spans.Pairwise fun a b => a.1 + a.2 ≤ b.1
  within : ∀ span ∈ spans, low ≤ span.1 ∧ span.1 + span.2 ≤ high
  ends : ∀ {σ ε : Type} (copier : Copier σ ε source) (s : σ),
    (∀ place, low ≤ place → place < high → copier.dest s place = initial place) →
    (∃ s', Taken copier.call spans s s' ∧
      run copier.call s = some (.ok (report (totalLength spans, spans.length)), s') ∧
      (∀ place, low ≤ place → place < high → copier.dest s' place = source place) ∧
      ∀ place, ¬ (low ≤ place ∧ place < high) → copier.dest s' place = copier.dest s place) ∨
    ∃ before refused after s₁ e s', spans = before ++ refused :: after ∧
      Taken copier.call before s s₁ ∧ copier.call refused.1 refused.2 s₁ = (.error e, s') ∧
      run copier.call s = some (.error e, s') ∧
      (∀ place, (∃ span ∈ before, span.Over place) → copier.dest s₁ place = source place) ∧
      ∀ place, (¬ ∃ span ∈ before, span.Over place) → copier.dest s₁ place = copier.dest s place

/-- It is enough that the spans go over every place where the source differs. -/
theorem copiesAll_of_spans {initial : Nat → α} {report : Nat × Nat → ρ}
    {run : ∀ {σ ε : Type}, (Nat → Nat → σ → Except ε Unit × σ) → σ → Option (Except ε ρ × σ)}
    (h : Spans (fun place => source place ≠ initial place) low high spans)
    (hrun : ∀ {σ ε : Type} (call : Nat → Nat → σ → Except ε Unit × σ) (s : σ),
      run call s = some ((performs call spans (0, 0) s).map (Except.map report) id)) :
    CopiesAll source initial low high report run spans where
  nonempty := h.nonempty
  ascending := h.ascending
  within := h.within
  ends := fun copier s hinitial => by
    rw [hrun]
    rcases @performs_ok_or_error _ _ copier.call spans (0, 0) s with ⟨s', htaken, hperforms⟩ |
      ⟨before, refused, after, s₁, e, s', hspans, htaken, hrefused, hperforms⟩
    · refine .inl ⟨s', htaken, ?_, fun place hlow hhigh => ?_, fun place hout => ?_⟩
      · rw [hperforms, Nat.zero_add, Nat.zero_add]
        rfl
      · by_cases hover : ∃ span ∈ spans, span.Over place
        · exact (dest_of_taken htaken place).1 hover
        · have hsame : source place = initial place :=
            Classical.byContradiction fun hne => hover (h.covered place hlow hhigh hne)
          rw [(dest_of_taken htaken place).2 hover, hinitial place hlow hhigh, hsame]
      · refine (dest_of_taken htaken place).2 fun ⟨span, hspan, hover⟩ => hout ?_
        have hwithin := h.within span hspan
        unfold Span.Over at hover
        omega
    · refine .inr ⟨before, refused, after, s₁, e, s', hspans, htaken, hrefused, ?_,
        fun place => (dest_of_taken htaken place).1, fun place => (dest_of_taken htaken place).2⟩
      rw [hperforms]
      rfl

end Performs

end Kinakaze.Library
