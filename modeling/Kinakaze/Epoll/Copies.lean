import Kinakaze.Epoll.Samples

/-!
# The copies that waits work on

* `Inv`: the copies against the registrations that are there, and what was delivered.
* `Inv.step`: the steps keep it.
-/

namespace Kinakaze.Epoll

open Library

/-! ## The invariant -/

/-- A copy of a registration that was not replaced since. -/
structure Matches (fresh : Bits) (r : Registration) (e : Entry) : Prop where
  data : e.registration.data = r.data
  interest : e.registration.interest = r.interest
  revision : ∃ applied ≤ e.consumed,
    r.readinessRevision = e.registration.readinessRevision + BitVec.ofNat 64 applied ∧
      (applied = 0 → ∀ i, e.stale.getLsbD i = true → (reportable r.interest).getLsbD i = false)
  fresh : ∀ i, e.registration.reported.getLsbD i = true → e.stale.getLsbD i = false →
    fresh.getLsbD i = true

structure SampleOk (e : Entry) (sample : Sample) : Prop where
  reported : Within sample.reported (reportable e.registration.interest)
  previous : Within sample.previous e.registration.reported

/-- What is reported was asked for, and is fresh. -/
structure RegistrationOk (fresh : Bits) (r : Registration) : Prop where
  fresh : Within r.reported fresh
  reportable : Within r.reported (reportable r.interest)

/-- An event has the cookie of the registration that is there, and conditions it asks for. -/
structure Delivery.Ok (d : Delivery) : Prop where
  data : d.data = d.registration.data
  events : Within d.events (reportable d.registration.interest)

structure Inv (s : State) : Prop where
  registered : ∀ key r, s.registrations key = some r → RegistrationOk (s.fresh key) r
  copied : ∀ wait key e r, s.waits wait key = some e → s.registrations key = some r →
    e.replaced = false → Matches (s.fresh key) r e
  sampled : ∀ wait key e sample, s.waits wait key = some e → e.sample = some sample →
    SampleOk e sample
  once : ∀ key, s.shots key ≤ 1
  spent : ∀ key r, s.shots key = 1 → s.registrations key = some r → r.disarmed = true
  log : ∀ d ∈ s.log, d.Ok

/-- The steps after which nothing stale is delivered. -/
def Permitted (s : State) : Call → Prop
  | .sample wait key ready => ∀ e, s.waits wait key = some e → e.registration.Asked ready
  | .readinessConsumed descriptionId events => ∀ key r, s.registrations key = some r →
      key.descriptionId = descriptionId →
        meets r.interest events ∨ meets (EPOLLERR ||| EPOLLHUP) events = false
  | .deliver wait key _ => ∀ e r, s.waits wait key = some e → s.registrations key = some r →
      e.sample.isSome → r.disarmed = false → e.replaced = false ∧ e.consumed < 2 ^ 64
  | _ => True

variable {r : Registration} {e : Entry}

theorem Matches.mono {fresh fresh' : Bits} (h : Matches fresh r e)
    (hfresh : Within fresh fresh') : Matches fresh' r e :=
  ⟨h.data, h.interest, h.revision, fun i hi hstale => hfresh i (h.fresh i hi hstale)⟩

theorem Matches.congr {fresh : Bits} {r' : Registration} (h : Matches fresh r e)
    (hdata : r'.data = r.data) (hinterest : r'.interest = r.interest)
    (hrevision : r'.readinessRevision = r.readinessRevision) : Matches fresh r' e where
  data := h.data.trans hdata.symm
  interest := h.interest.trans hinterest.symm
  revision := by
    rw [hrevision, hinterest]
    exact h.revision
  fresh := h.fresh

theorem Matches.unconsumed {fresh : Bits} (h : Matches fresh r e) (hconsumed : e.consumed < 2 ^ 64)
    (hrevision : r.readinessRevision = e.registration.readinessRevision) {i : Nat}
    (hi : (reportable e.registration.interest).getLsbD i = true) : e.stale.getLsbD i = false := by
  obtain ⟨applied, hle, heq, hdisjoint⟩ := h.revision
  have hzero : BitVec.ofNat 64 applied = 0 := by
    rw [hrevision] at heq
    exact BitVec.add_right_eq_self.mp heq.symm
  have happlied : applied = 0 := by
    have hmod := congrArg BitVec.toNat hzero
    rw [BitVec.toNat_ofNat] at hmod
    exact (Nat.mod_eq_of_lt (by omega)).symm.trans hmod
  rw [h.interest] at hi
  by_contra hstale
  rw [Bool.not_eq_false] at hstale
  rw [hdisjoint happlied i hstale] at hi
  cases hi

/-! ## Steps -/

namespace Inv

variable {s : State}

theorem mapped (h : Inv s) {f : Key → Registration → Option Registration}
    (hf : ∀ key r r', f key r = some r' → r'.data = r.data ∧ r'.interest = r.interest ∧
      r'.readinessRevision = r.readinessRevision ∧ r'.disarmed = r.disarmed ∧
        Within r'.reported r.reported) : Inv (s.mapped f) where
  registered := fun key r' hr' => by
    obtain ⟨r, hr, hkept⟩ := Option.bind_eq_some_iff.mp hr'
    obtain ⟨-, hinterest, -, -, hreported⟩ := hf key r r' hkept
    obtain ⟨hfresh, hreportable⟩ := h.registered key r hr
    refine ⟨hreported.trans hfresh, ?_⟩
    rw [hinterest]
    exact hreported.trans hreportable
  copied := fun wait key e r' he hr' hreplaced => by
    obtain ⟨r, hr, hkept⟩ := Option.bind_eq_some_iff.mp hr'
    obtain ⟨hdata, hinterest, hrevision, -, -⟩ := hf key r r' hkept
    exact (h.copied wait key e r he hr hreplaced).congr hdata hinterest hrevision
  sampled := h.sampled
  once := h.once
  spent := fun key r' hshots hr' => by
    obtain ⟨r, hr, hkept⟩ := Option.bind_eq_some_iff.mp hr'
    obtain ⟨-, -, -, hdisarmed, -⟩ := hf key r r' hkept
    rw [hdisarmed]
    exact h.spent key r hshots hr
  log := h.log

variable {key key' : Key} {wait : Nat}

theorem entry_of_setEntry {wait' : Nat} {e : Option Entry} {e' : Entry}
    (h : (s.setEntry wait key e).waits wait' key' = some e') :
    (wait' = wait ∧ key' = key ∧ e = some e') ∨ s.waits wait' key' = some e' := by
  unfold State.setEntry at h
  dsimp only at h
  by_cases hwait : wait' = wait
  · subst hwait
    rw [Function.update_self] at h
    by_cases hkey : key' = key
    · subst hkey
      rw [Function.update_self] at h
      exact .inl ⟨rfl, rfl, h⟩
    · rw [Function.update_of_ne hkey] at h
      exact .inr h
  · rw [Function.update_of_ne hwait] at h
    exact .inr h

theorem setEntry (h : Inv s) {e : Option Entry}
    (hcopied : ∀ e' r, e = some e' → s.registrations key = some r → e'.replaced = false →
      Matches (s.fresh key) r e')
    (hsampled : ∀ e' sample, e = some e' → e'.sample = some sample → SampleOk e' sample) :
    Inv (s.setEntry wait key e) where
  registered := h.registered
  copied := fun wait' key' e' r he hr hreplaced => by
    rcases entry_of_setEntry he with ⟨-, rfl, hnew⟩ | hold
    · exact hcopied e' r hnew hr hreplaced
    · exact h.copied wait' key' e' r hold hr hreplaced
  sampled := fun wait' key' e' sample he hsample => by
    rcases entry_of_setEntry he with ⟨-, -, hnew⟩ | hold
    · exact hsampled e' sample hnew hsample
    · exact h.sampled wait' key' e' sample hold hsample
  once := h.once
  spent := h.spent
  log := h.log

theorem drop (h : Inv s) (wait : Nat) (key : Key) : Inv (s.setEntry wait key none) :=
  h.setEntry (fun _ _ he => nomatch he) (fun _ _ he => nomatch he)

theorem entry_of_replace (h : (s.replace key).waits wait key' = some e) :
    ∃ e', s.waits wait key' = some e' ∧ e.registration = e'.registration ∧ e.sample = e'.sample ∧
      (key' = key → e.replaced = true) ∧ (key' ≠ key → e = e') := by
  unfold State.replace at h
  dsimp only at h
  by_cases hkey : key' = key
  · subst hkey
    rw [Function.update_self] at h
    obtain ⟨e', he', rfl⟩ := Option.map_eq_some_iff.mp h
    exact ⟨e', he', rfl, rfl, fun _ => rfl, fun hne => absurd rfl hne⟩
  · rw [Function.update_of_ne hkey] at h
    exact ⟨e, h, rfl, rfl, fun heq => absurd heq hkey, fun _ => rfl⟩

section

variable (h : Inv s)
include h

theorem once_armed (key key' : Key) : Function.update s.shots key 0 key' ≤ 1 := by
  by_cases hkey : key' = key
  · rw [hkey, Function.update_self]
    exact Nat.zero_le 1
  · rw [Function.update_of_ne hkey]
    exact h.once key'

theorem spent_armed {new : Registration} (hshots : Function.update s.shots key 0 key' = 1)
    (hr : Function.update s.registrations key (some new) key' = some r) : r.disarmed = true := by
  by_cases hkey : key' = key
  · rw [hkey, Function.update_self] at hshots
    cases hshots
  · rw [Function.update_of_ne hkey] at hshots hr
    exact h.spent key' r hshots hr

theorem add (key : Key) (category : Category) (object : Nat) (event : Event) :
    Inv (s.add key category object event) := by
  unfold State.add
  split
  · exact h
  refine ⟨fun key' r hr => ?_, fun wait key' e r he hr hreplaced => ?_,
    fun wait key' e sample he hsample => ?_, fun key' => ?_, fun key' r hshots hr => ?_, h.log⟩
  all_goals dsimp only at *
  · by_cases hkey : key' = key
    · subst hkey
      rw [Function.update_self] at hr ⊢
      cases hr
      exact ⟨zero_within _, zero_within _⟩
    · rw [Function.update_of_ne hkey] at hr ⊢
      exact h.registered key' r hr
  · obtain ⟨e', he', -, -, hmarked, hsame⟩ := entry_of_replace he
    by_cases hkey : key' = key
    · rw [hmarked hkey] at hreplaced
      cases hreplaced
    · rw [Function.update_of_ne hkey] at hr ⊢
      obtain rfl := hsame hkey
      exact h.copied wait key' e r he' hr hreplaced
  · obtain ⟨e', he', hregistration, hsame, -, -⟩ := entry_of_replace he
    rw [hsame] at hsample
    obtain ⟨hreported, hprevious⟩ := h.sampled wait key' e' sample he' hsample
    rw [← hregistration] at hreported hprevious
    exact ⟨hreported, hprevious⟩
  · exact h.once_armed key key'
  · exact h.spent_armed hshots hr

theorem modify (key : Key) (event : Event) : Inv (s.modify key event) := by
  unfold State.modify
  split
  · exact h
  · next r hr =>
    have hentries : ∀ wait key' e,
        (if event.events = r.interest ∧ event.data = r.data then s else s.replace key).waits
          wait key' = some e →
        ∃ e', s.waits wait key' = some e' ∧ e.registration = e'.registration ∧
          e.sample = e'.sample ∧ (e.replaced = false → e = e' ∧
            (key' = key → event.events = r.interest ∧ event.data = r.data)) := by
      intro wait key' e he
      split at he
      · next hsame => exact ⟨e, he, rfl, rfl, fun _ => ⟨rfl, fun _ => hsame⟩⟩
      obtain ⟨e', he', hregistration, hsample, hmarked, hother⟩ := entry_of_replace he
      refine ⟨e', he', hregistration, hsample, fun hreplaced => ?_⟩
      by_cases hkey : key' = key
      · rw [hmarked hkey] at hreplaced
        cases hreplaced
      · exact ⟨hother hkey, fun heq => absurd heq hkey⟩
    have hkept : (if event.events = r.interest ∧ event.data = r.data then s
        else s.replace key).fresh = s.fresh ∧
        (if event.events = r.interest ∧ event.data = r.data then s
          else s.replace key).log = s.log := by
      split <;> exact ⟨rfl, rfl⟩
    generalize (if event.events = r.interest ∧ event.data = r.data then s else s.replace key) = s'
      at hentries hkept
    obtain ⟨hfresh, hlog⟩ := hkept
    refine ⟨fun key' r' hr' => ?_, fun wait key' e r' he hr' hreplaced => ?_,
      fun wait key' e sample he hsample => ?_, fun key' => ?_, fun key' r' hshots hr' => ?_, ?_⟩
    all_goals dsimp only at *
    · rw [hfresh]
      by_cases hkey : key' = key
      · subst hkey
        rw [Function.update_self] at hr'
        cases hr'
        exact ⟨zero_within _, zero_within _⟩
      · rw [Function.update_of_ne hkey] at hr'
        exact h.registered key' r' hr'
    · rw [hfresh]
      obtain ⟨e', he', -, -, hsame⟩ := hentries wait key' e he
      obtain ⟨rfl, hevent⟩ := hsame hreplaced
      by_cases hkey : key' = key
      · obtain ⟨hevents, hdata⟩ := hevent hkey
        subst hkey
        rw [Function.update_self] at hr'
        cases hr'
        exact (h.copied wait key' e r he' hr hreplaced).congr hdata hevents rfl
      · rw [Function.update_of_ne hkey] at hr'
        exact h.copied wait key' e r' he' hr' hreplaced
    · obtain ⟨e', he', hregistration, hsame, -⟩ := hentries wait key' e he
      rw [hsame] at hsample
      obtain ⟨hreported, hprevious⟩ := h.sampled wait key' e' sample he' hsample
      rw [← hregistration] at hreported hprevious
      exact ⟨hreported, hprevious⟩
    · exact h.once_armed key key'
    · exact h.spent_armed hshots hr'
    · rw [hlog]
      exact h.log

theorem descriptorClosed (descriptionId : Nat) (survivor : Option Int) (alive : Bool) :
    Inv (s.descriptorClosed descriptionId survivor alive) := by
  refine h.mapped fun key r r' hr' => ?_
  split at hr'
  · cases hr'
    exact ⟨rfl, rfl, rfl, rfl, fun _ hi => hi⟩
  split at hr'
  · cases hr'
    exact ⟨rfl, rfl, rfl, rfl, fun _ hi => hi⟩
  split at hr'
  · cases hr'
    exact ⟨rfl, rfl, rfl, rfl, fun _ hi => hi⟩
  · cases hr'

theorem descriptorRebound (fd : Int) (descriptionId : Nat) :
    Inv (s.descriptorRebound fd descriptionId) := by
  refine h.mapped fun key r r' hr' => ?_
  split at hr'
  · cases hr'
    exact ⟨rfl, rfl, rfl, rfl, zero_within _⟩
  · cases hr'
    exact ⟨rfl, rfl, rfl, rfl, fun _ hi => hi⟩

theorem resolve (key : Key) (fd : Int) : Inv (s.resolve key fd) := by
  refine h.mapped fun key' r r' hr' => ?_
  split at hr'
  · cases hr'
    exact ⟨rfl, rfl, rfl, rfl, fun _ hi => hi⟩
  · cases hr'
    exact ⟨rfl, rfl, rfl, rfl, fun _ hi => hi⟩

theorem retire (key : Key) : Inv (s.retire key) := by
  refine h.mapped fun key' r r' hr' => ?_
  split at hr'
  · cases hr'
  · cases hr'
    exact ⟨rfl, rfl, rfl, rfl, fun _ hi => hi⟩

theorem delete (key : Key) : Inv (s.mapped fun key' r => if key' = key then none else some r) := by
  refine h.mapped fun key' r r' hr' => ?_
  split at hr'
  · cases hr'
  · cases hr'
    exact ⟨rfl, rfl, rfl, rfl, fun _ hi => hi⟩

theorem readinessConsumed (descriptionId : Nat) (events : Bits)
    (hpermitted : Permitted s (.readinessConsumed descriptionId events)) :
    Inv (s.readinessConsumed descriptionId events) := by
  unfold State.readinessConsumed
  split
  · exact h
  have hdisjoint : ∀ key r, s.registrations key = some r → key.descriptionId = descriptionId →
      meets r.interest events = false →
        ∀ i, events.getLsbD i = true → (reportable r.interest).getLsbD i = false := by
    intro key r hr hkey hnot i hi
    by_contra hreportable
    rw [Bool.not_eq_false] at hreportable
    rw [reportable, BitVec.or_assoc, BitVec.getLsbD_or, Bool.or_eq_true] at hreportable
    rcases hreportable with hasked | halways
    · have hnone := not_meets_iff.mp hnot i hasked
      rw [hi] at hnone
      cases hnone
    · have hmeets := (hpermitted key r hr hkey).resolve_left (by rw [hnot]; exact nofun)
      have hnone := not_meets_iff.mp hmeets i halways
      rw [hi] at hnone
      cases hnone
  refine ⟨fun key r' hr' => ?_, fun wait key e' r' he' hr' hreplaced => ?_,
    fun wait key e' sample he' hsample => ?_, h.once, fun key r' hshots hr' => ?_, h.log⟩
  all_goals dsimp only at *
  · obtain ⟨r, hr, rfl⟩ := Option.map_eq_some_iff.mp hr'
    obtain ⟨hfresh, hreportable⟩ := h.registered key r hr
    by_cases hkey : key.descriptionId = descriptionId
    · cases hmeets : meets r.interest events with
      | true =>
        rw [if_pos hkey, if_pos ⟨hkey, rfl⟩]
        refine ⟨fun i hi => ?_, (within_and_left _ _).trans hreportable⟩
        obtain ⟨hold, hnot⟩ := getLsbD_diff.mp hi
        exact getLsbD_diff.mpr ⟨hfresh i hold, hnot⟩
      | false =>
        rw [if_pos hkey, if_neg (fun hboth => nomatch hboth.2)]
        refine ⟨fun i hi => getLsbD_diff.mpr ⟨hfresh i hi, ?_⟩, hreportable⟩
        by_contra hevent
        rw [Bool.not_eq_false] at hevent
        have hnone := hdisjoint key r hr hkey hmeets i hevent
        rw [hreportable i hi] at hnone
        cases hnone
    · rw [if_neg hkey, if_neg (fun hboth => hkey hboth.1)]
      exact ⟨hfresh, hreportable⟩
  · obtain ⟨r, hr, rfl⟩ := Option.map_eq_some_iff.mp hr'
    obtain ⟨e, he, rfl⟩ := Option.map_eq_some_iff.mp he'
    by_cases hkey : key.descriptionId = descriptionId
    · rw [if_pos hkey] at hreplaced
      obtain ⟨hdata, hinterest, ⟨applied, hle, hrevision, hstale⟩, hfresh⟩ :=
        h.copied wait key e r he hr hreplaced
      have hkept : ∀ i, e.registration.reported.getLsbD i = true →
          (e.stale ||| events).getLsbD i = false →
            (s.fresh key &&& ~~~events).getLsbD i = true := by
        intro i hi hnot
        rw [BitVec.getLsbD_or, Bool.or_eq_false_iff] at hnot
        exact getLsbD_diff.mpr ⟨hfresh i hi hnot.1, hnot.2⟩
      rw [if_pos hkey, if_pos hkey]
      cases hmeets : meets r.interest events with
      | true =>
        rw [if_pos ⟨hkey, rfl⟩]
        refine ⟨hdata, hinterest, ⟨applied + 1, Nat.succ_le_succ hle, ?_, nofun⟩, hkept⟩
        show r.readinessRevision + 1 = _
        rw [hrevision, BitVec.ofNat_add, BitVec.add_assoc]
        rfl
      | false =>
        rw [if_neg (fun hboth => nomatch hboth.2)]
        refine ⟨hdata, hinterest, ⟨applied, Nat.le_succ_of_le hle, hrevision, ?_⟩, hkept⟩
        intro hzero i hi
        rw [BitVec.getLsbD_or, Bool.or_eq_true] at hi
        rcases hi with hold | hevent
        · exact hstale hzero i hold
        · exact hdisjoint key r hr hkey hmeets i hevent
    · rw [if_neg hkey] at hreplaced
      rw [if_neg hkey, if_neg hkey, if_neg (fun hboth => hkey hboth.1)]
      exact h.copied wait key e r he hr hreplaced
  · obtain ⟨e, he, rfl⟩ := Option.map_eq_some_iff.mp he'
    split at hsample
    · obtain ⟨hreported, hprevious⟩ := h.sampled wait key e sample he hsample
      rw [if_pos ‹_›]
      exact ⟨hreported, hprevious⟩
    · rw [if_neg ‹_›]
      exact h.sampled wait key e sample he hsample
  · obtain ⟨r, hr, rfl⟩ := Option.map_eq_some_iff.mp hr'
    have hdisarmed := h.spent key r hshots hr
    split <;> exact hdisarmed

theorem snapshot (wait : Nat) : Inv (s.snapshot wait) := by
  have hentries : ∀ wait' key e, (s.snapshot wait).waits wait' key = some e →
      s.waits wait' key = some e ∨
        ∃ r, s.registrations key = some r ∧ e = { registration := r } := by
    intro wait' key e he
    unfold State.snapshot at he
    dsimp only at he
    by_cases hwait : wait' = wait
    · rw [hwait, Function.update_self] at he
      split at he
      · cases he
      · next r hr =>
        split at he
        · cases he
          exact .inr ⟨r, hr, rfl⟩
        · cases he
    · rw [Function.update_of_ne hwait] at he
      exact .inl he
  refine ⟨h.registered, fun wait' key e r he hr hreplaced => ?_,
    fun wait' key e sample he hsample => ?_, h.once, h.spent, h.log⟩
  · rcases hentries wait' key e he with hold | ⟨r', hr', rfl⟩
    · exact h.copied wait' key e r hold hr hreplaced
    · obtain rfl : r' = r := Option.some_inj.mp (hr'.symm.trans hr)
      refine ⟨rfl, rfl, ⟨0, Nat.le_refl 0, (BitVec.add_zero _).symm, fun _ i hi => ?_⟩,
        fun i hi _ => (h.registered key r' hr').fresh i hi⟩
      rw [getLsbD_none] at hi
      cases hi
  · rcases hentries wait' key e he with hold | ⟨r', hr', rfl⟩
    · exact h.sampled wait' key e sample hold hsample
    · cases hsample

theorem sample (wait : Nat) (key : Key) (ready : Ready)
    (hpermitted : Permitted s (.sample wait key ready)) : Inv (s.sample wait key ready) := by
  unfold State.sample
  split
  · exact h
  · next e he =>
    split
    · exact h
    refine h.setEntry (fun e' r he' hr hreplaced => ?_) fun e' sample he' hsample => ?_
    · cases he'
      obtain ⟨hdata, hinterest, hrevision, hfresh⟩ := h.copied wait key e r he hr hreplaced
      exact ⟨hdata, hinterest, hrevision, hfresh⟩
    · cases he'
      cases hsample
      exact ⟨Registration.sampled_within (hpermitted e he), Registration.previous_within _⟩

theorem clear (wait : Nat) (key : Key) : Inv (s.clear wait key) := by
  unfold State.clear
  split
  · exact h
  · next e he =>
    split
    · exact h
    · next sample hsample =>
      split
      · exact h
      · next current _ =>
        have hmapped : Inv (s.mapped fun key' r =>
            if key' = key then some { r with reported := r.reported &&& current }
            else some r) := by
          refine h.mapped fun key' r r' hr' => ?_
          split at hr'
          · cases hr'
            exact ⟨rfl, rfl, rfl, rfl, within_and_left _ _⟩
          · cases hr'
            exact ⟨rfl, rfl, rfl, rfl, fun _ hi => hi⟩
        refine hmapped.setEntry (fun e' r he' hr hreplaced => ?_) fun e' sample' he' hs => ?_
        · cases he'
          obtain ⟨hdata, hinterest, hrevision, hfresh⟩ :=
            hmapped.copied wait key e r he hr hreplaced
          exact ⟨hdata, hinterest, hrevision, hfresh⟩
        · cases he'
          cases hs
          obtain ⟨hreported, hprevious⟩ := h.sampled wait key e sample he hsample
          exact ⟨hreported, hprevious⟩

theorem accept {sample : Sample} {r' : Registration}
    (he : s.waits wait key = some e) (hsample : e.sample = some sample)
    (hr : s.registrations key = some r) (hreplaced : e.replaced = false)
    (hconsumed : e.consumed < 2 ^ 64)
    (haccepted : Accepted r r' sample.reported e.registration.readinessRevision) :
    Inv (s.accept key e sample r r') := by
  have hmatches := h.copied wait key e r he hr hreplaced
  have hsampled := h.sampled wait key e sample he hsample
  have hold := h.registered key r hr
  have hreportable : Within sample.reported (reportable r.interest) := by
    rw [← hmatches.interest]
    exact hsampled.reported
  have hmore : Within (s.fresh key) (s.fresh key ||| (sample.reported &&& ~~~e.stale)) :=
    within_or_left _ _
  refine ⟨fun key' r₁ hr₁ => ?_, fun wait' key' e₁ r₁ he₁ hr₁ hreplaced₁ => ?_, h.sampled,
    fun key' => ?_, fun key' r₁ hshots hr₁ => ?_, fun d hd => ?_⟩
  all_goals unfold State.accept at *
  all_goals dsimp only at *
  · by_cases hkey : key' = key
    · subst hkey
      rw [Function.update_self] at hr₁ ⊢
      obtain rfl := Option.some_inj.mp hr₁
      rcases haccepted.reported with hsame | ⟨hrevision, hgrown⟩
      · refine ⟨?_, ?_⟩
        · rw [hsame]
          exact hold.fresh.trans hmore
        · rw [hsame, haccepted.interest]
          exact hold.reportable
      · refine ⟨?_, ?_⟩
        · rw [hgrown]
          refine (hold.fresh.trans hmore).or fun i hi => within_or_right _ _ i ?_
          exact getLsbD_diff.mpr
            ⟨hi, hmatches.unconsumed hconsumed hrevision (hsampled.reported i hi)⟩
        · rw [hgrown, haccepted.interest]
          exact hold.reportable.or hreportable
    · rw [Function.update_of_ne hkey] at hr₁ ⊢
      exact h.registered key' r₁ hr₁
  · by_cases hkey : key' = key
    · subst hkey
      rw [Function.update_self] at hr₁ ⊢
      obtain rfl := Option.some_inj.mp hr₁
      exact ((h.copied wait' key' e₁ r he₁ hr hreplaced₁).mono hmore).congr haccepted.data
        haccepted.interest haccepted.revision
    · rw [Function.update_of_ne hkey] at hr₁ ⊢
      exact h.copied wait' key' e₁ r₁ he₁ hr₁ hreplaced₁
  · split
    · by_cases hkey : key' = key
      · rw [hkey, Function.update_self]
        -- it was armed, so it has had none
        have hfirst : s.shots key ≠ 1 := fun hone => by
          have hdisarmed := h.spent key r hone hr
          rw [haccepted.armed] at hdisarmed
          cases hdisarmed
        have honce := h.once key
        omega
      · rw [Function.update_of_ne hkey]
        exact h.once key'
    · exact h.once key'
  · by_cases hkey : key' = key
    · subst hkey
      rw [Function.update_self] at hr₁
      obtain rfl := Option.some_inj.mp hr₁
      split at hshots
      · next honeshot => exact haccepted.oneshot honeshot
      · have hdisarmed := h.spent key' r hshots hr
        rw [haccepted.armed] at hdisarmed
        cases hdisarmed
    · rw [Function.update_of_ne hkey] at hr₁
      refine h.spent key' r₁ ?_ hr₁
      split at hshots
      · rw [Function.update_of_ne hkey] at hshots
        exact hshots
      · exact hshots
  · rcases List.mem_cons.mp hd with rfl | hd
    · exact ⟨hmatches.data, hreportable⟩
    · exact h.log d hd

theorem deliver (wait : Nat) (key : Key) (alive : Bool)
    (hpermitted : Permitted s (.deliver wait key alive)) : Inv (s.deliver wait key alive) := by
  unfold State.deliver
  split
  · exact h
  · next e he =>
    split
    · exact h
    · next sample hsample =>
      split
      · exact h
      split
      · exact h.drop wait key
      split
      · exact h.drop wait key
      · next r hr =>
        split
        · exact h.drop wait key
        · next r' hfinish =>
          have haccepted := finishDelivery_accepted hfinish
          obtain ⟨hreplaced, hconsumed⟩ :=
            hpermitted e r he hr (by rw [hsample]; rfl) haccepted.armed
          exact (h.accept he hsample hr hreplaced hconsumed haccepted).drop wait key

theorem step (call : Call) (hpermitted : Permitted s call) : Inv (s.step call) := by
  cases call with
  | add key category object event => exact h.add key category object event
  | modify key event => exact h.modify key event
  | delete key => exact h.delete key
  | descriptorClosed descriptionId survivor alive =>
    exact h.descriptorClosed descriptionId survivor alive
  | descriptorRebound fd descriptionId => exact h.descriptorRebound fd descriptionId
  | readinessConsumed descriptionId events =>
    exact h.readinessConsumed descriptionId events hpermitted
  | resolve key fd => exact h.resolve key fd
  | retire key => exact h.retire key
  | snapshot wait => exact h.snapshot wait
  | sample wait key ready => exact h.sample wait key ready hpermitted
  | clear wait key => exact h.clear wait key
  | deliver wait key alive => exact h.deliver wait key alive hpermitted

end

end Inv

/-! ## Edges -/

/-- A wait that has sampled a condition it did not see consumed delivers it, or it was delivered
since it was consumed. -/
theorem Inv.reported {s : State} (h : Inv s) {wait : Nat} {key : Key} {sample : Sample}
    (he : s.waits wait key = some e) (hsample : e.sample = some sample)
    (hcleared : sample.clears = none) (hr : s.registrations key = some r)
    (hreplaced : e.replaced = false) (harmed : r.disarmed = false) (hfd : 0 ≤ r.pollFd)
    (alive : Bool) {i : Nat} (hi : sample.reported.getLsbD i = true)
    (hstale : e.stale.getLsbD i = false) :
    (s.fresh key).getLsbD i = true ∨ ∃ d, (s.deliver wait key alive).log = d :: s.log ∧
      d.key = key ∧ d.events.getLsbD i = true := by
  have hnonzero : sample.reported ≠ 0 := by
    intro hzero
    rw [hzero, getLsbD_none] at hi
    cases hi
  unfold State.deliver
  rw [he]
  dsimp only
  rw [hsample]
  dsimp only
  rw [if_neg (by rw [hcleared]; exact nofun)]
  split
  · next hskipped =>
    obtain ⟨-, hsame⟩ := hskipped.resolve_left hnonzero
    have hprevious := within_of_diff hsame i hi
    have hcopied := (h.sampled wait key e sample he hsample).previous i hprevious
    exact .inl ((h.copied wait key e r he hr hreplaced).fresh i hcopied hstale)
  · rw [hr]
    dsimp only
    split
    · next hrefused =>
      have hreported := finishDelivery_refused hrefused hfd harmed i hi
      exact .inl ((h.registered key r hr).fresh i hreported)
    · exact .inr ⟨_, rfl, rfl, hi⟩

end Kinakaze.Epoll

/-!
## What is delivered

* `Lawful`: no event is stale, one-shot registrations are delivered once, and no edge is lost.
* `deliveries_lawful`: so it is in every run of permitted steps.
* `stale_deliveries`: and not in others.
-/

namespace Kinakaze.Epoll

open Library

structure Lawful (s : State) : Prop where
  /-- An event has the cookie of the registration that was there, and what that had asked for. -/
  delivered : ∀ d ∈ s.log, d.data = d.registration.data ∧ ∀ i, d.events.getLsbD i = true →
      (d.registration.interest ||| EPOLLERR ||| EPOLLHUP).getLsbD i = true
  /-- A one-shot registration is delivered once until it is armed again. -/
  once : ∀ key, s.shots key ≤ 1
  /-- A condition that a wait samples is delivered by it, or was delivered since it was last
  consumed. -/
  reported : ∀ wait key e sample r alive i, s.waits wait key = some e → e.sample = some sample →
    sample.clears = none → s.registrations key = some r → e.replaced = false →
    r.disarmed = false → 0 ≤ r.pollFd → sample.reported.getLsbD i = true →
    e.stale.getLsbD i = false →
      (s.fresh key).getLsbD i = true ∨ ∃ d, (s.deliver wait key alive).log = d :: s.log ∧
        d.key = key ∧ d.events.getLsbD i = true

theorem Inv.lawful {s : State} (h : Inv s) : Lawful s where
  delivered := fun d hd => ⟨(h.log d hd).data, (h.log d hd).events⟩
  once := h.once
  reported := fun _ _ _ _ _ alive _ he hsample hcleared hr hreplaced harmed hfd hi hstale =>
    h.reported he hsample hcleared hr hreplaced harmed hfd alive hi hstale

/-- A set without registrations. -/
def empty (shared : Bool) : State := { shared := shared }

theorem empty_inv (shared : Bool) : Inv (empty shared) where
  registered := fun _ _ hr => nomatch hr
  copied := fun _ _ _ _ he => nomatch he
  sampled := fun _ _ _ _ he => nomatch he
  once := fun _ => Nat.zero_le 1
  spent := fun _ _ _ hr => nomatch hr
  log := fun _ hd => nomatch hd

/-- Every run in which no delivery comes after the registration was replaced, no consumption passes
a registration by, and no socket reports a disconnect that it was not asked for. -/
theorem deliveries_lawful {shared : Bool} {calls : List Call}
    (h : EveryStep State.step Permitted (empty shared) calls) :
    EveryState State.step Lawful (empty shared) calls := by
  have hinv : EveryState State.step Inv (empty shared) calls :=
    .of_preserved (fun _ call hs hpermitted => hs.step call hpermitted) (empty_inv shared) h
  exact hinv.mono fun _ hs => hs.lawful

/-- An eventfd that is registered, found readable, and delivered. -/
theorem deliveries_lawful_readable : EveryState State.step Lawful (empty false)
      [.add ⟨5, 9⟩ .eventfd 0 ⟨EPOLLIN ||| EPOLLET, 1⟩, .snapshot 0,
        .sample 0 ⟨5, 9⟩ { readable := true }, .clear 0 ⟨5, 9⟩, .deliver 0 ⟨5, 9⟩ true] := by
  refine deliveries_lawful ⟨trivial, trivial, ?_, trivial, ?_, trivial⟩
  · intro e he _ hsocket
    cases he
    cases hsocket
  · intro e r he _ _ _
    cases he
    exact ⟨rfl, by decide⟩

/-- A run that delivers the cookie of before `EPOLL_CTL_MOD`; one that delivers `EPOLLRDHUP` to a
socket that did not ask for it; one in which an edge is lost to a wait that began before
`EPOLL_CTL_DEL` and `EPOLL_CTL_ADD`; and one in which it is lost to a read that took no notice. -/
theorem stale_deliveries : ¬ EveryState State.step Lawful (empty false)
      [.add ⟨5, 9⟩ .eventfd 0 ⟨EPOLLIN, 1⟩, .snapshot 0, .sample 0 ⟨5, 9⟩ { readable := true },
        .clear 0 ⟨5, 9⟩, .modify ⟨5, 9⟩ ⟨EPOLLIN, 2⟩, .deliver 0 ⟨5, 9⟩ true] ∧
    ¬ EveryState State.step Lawful (empty false) [.add ⟨5, 9⟩ .socket 0 ⟨EPOLLIN, 1⟩, .snapshot 0,
        .sample 0 ⟨5, 9⟩ { mask := AFD_POLL_DISCONNECT }, .deliver 0 ⟨5, 9⟩ true] ∧
    ¬ EveryState State.step Lawful (empty false)
      [.add ⟨5, 9⟩ .unix 0 ⟨EPOLLIN ||| EPOLLET, 1⟩, .readinessConsumed 9 EPOLLIN, .snapshot 0,
        .sample 0 ⟨5, 9⟩ { readable := true }, .clear 0 ⟨5, 9⟩, .delete ⟨5, 9⟩,
        .add ⟨5, 9⟩ .unix 0 ⟨EPOLLIN ||| EPOLLET, 1⟩, .readinessConsumed 9 EPOLLIN,
        .deliver 0 ⟨5, 9⟩ true, .snapshot 1, .sample 1 ⟨5, 9⟩ { readable := true },
        .clear 1 ⟨5, 9⟩] ∧
    ¬ EveryState State.step Lawful (empty false)
      [.add ⟨5, 9⟩ .eventfd 0 ⟨EPOLLIN ||| EPOLLET, 1⟩, .snapshot 0,
        .sample 0 ⟨5, 9⟩ { mask := EPOLLERR, pseudoFile := true }, .clear 0 ⟨5, 9⟩,
        .readinessConsumed 9 (EPOLLPRI ||| EPOLLERR), .deliver 0 ⟨5, 9⟩ true, .snapshot 1,
        .sample 1 ⟨5, 9⟩ { mask := EPOLLERR, pseudoFile := true }, .clear 1 ⟨5, 9⟩] := by
  refine ⟨fun h => ?_, fun h => ?_, fun h => ?_, fun h => ?_⟩
  · have hdata := (h.last.delivered _ (.head _)).1
    revert hdata
    decide
  · have hevents := (h.last.delivered _ (.head _)).2 13 (by decide)
    revert hevents
    decide
  · rcases h.last.reported 1 ⟨5, 9⟩ _ _ _ true 0 rfl rfl rfl rfl rfl rfl (by decide) (by decide)
      (by decide) with hfresh | ⟨d, hlog, -⟩
    · revert hfresh
      decide
    · have hlength := congrArg List.length hlog
      rw [List.length_cons] at hlength
      revert hlength
      decide
  · rcases h.last.reported 1 ⟨5, 9⟩ _ _ _ true 3 rfl rfl rfl rfl rfl rfl (by decide) (by decide)
      (by decide) with hfresh | ⟨d, hlog, -⟩
    · revert hfresh
      decide
    · have hlength := congrArg List.length hlog
      rw [List.length_cons] at hlength
      revert hlength
      decide

end Kinakaze.Epoll
