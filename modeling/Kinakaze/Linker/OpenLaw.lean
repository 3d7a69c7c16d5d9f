import Kinakaze.Library.Run
import Kinakaze.Linker.Visible

/-!
# What opening and closing leave behind

A `dlopen` that fails leaves the linker as it was, one that succeeds adds one
handle, and a provider is visible if it was loaded at startup or reached by an
`RTLD_GLOBAL` open, and not hidden since.  Two readings of "hidden" are told
apart: any facade closed to zero references, and only those that are not
`nodelete`.  The rollback covers everything up to the constructors.
-/

namespace Kinakaze.Linker

open Library

variable {Path : Type} [DecidableEq Path]

/-- The constructors still to be run do run. -/
def ConstructorsRun (s : Runtime Path) : RuntimeCall Path → Prop
  | .dlopen world _ _ _ => ∀ id, id ∉ s.initialized → world.construct id = .ok ()
  | .dlclose _ => True

/-- A successful open with `RTLD_GLOBAL` reaches the provider. -/
def Publishes (provider : Provider) (s : Runtime Path) : RuntimeCall Path → Prop
  | .dlopen world fuel path flags =>
    hasFlag flags rtldGlobal = true ∧ ∃ handle target,
      (openRuntime world fuel path flags s).1 = .ok handle ∧
      (openRuntime world fuel path flags s).2.handles.lookup handle = some target ∧
      (openRuntime world fuel path flags s).2.linker.ReachedFrom target provider
  | .dlclose _ => False

/-- The call takes the last reference from the facade. -/
def ClosesToZero (provider : Provider) (s : Runtime Path) : RuntimeCall Path → Prop
  | .dlopen _ _ _ _ => False
  | .dlclose handle => ∃ index dll, provider = .dll index ∧
      s.handles.lookup handle = some (.dll index) ∧
      s.linker.scope.dlls[index]? = some dll ∧ dll.references ≤ 1

/-- The call takes the last reference from a facade that may go. -/
def Hides (provider : Provider) (s : Runtime Path) (call : RuntimeCall Path) : Prop :=
  ClosesToZero provider s call ∧ provider ∉ s.nodelete

/-- The run leaves the tables aligned and visibility exact, and a further open is all or nothing. -/
structure Exact (permitted : Runtime Path → RuntimeCall Path → Prop)
    (hides : Provider → Runtime Path → RuntimeCall Path → Prop) (s : Runtime Path)
    (calls : List (RuntimeCall Path)) : Prop where
  aligned : Aligned (run Runtime.step s calls).linker
  visible : ∀ provider, (run Runtime.step s calls).linker.scope.Visible provider ↔
    Since Runtime.step (s.linker.InRange provider) (Publishes provider) (hides provider) s calls
  failed : ∀ world fuel path flags error,
    permitted (run Runtime.step s calls) (.dlopen world fuel path flags) →
    (openRuntime world fuel path flags (run Runtime.step s calls)).1 = .error error →
    (openRuntime world fuel path flags (run Runtime.step s calls)).2 = run Runtime.step s calls
  opened : ∀ world fuel path flags handle,
    permitted (run Runtime.step s calls) (.dlopen world fuel path flags) →
    (openRuntime world fuel path flags (run Runtime.step s calls)).1 = .ok handle →
    handle ∉ (run Runtime.step s calls).handles.map Prod.fst ∧ ∃ target,
      (openRuntime world fuel path flags (run Runtime.step s calls)).2.handles =
        (handle, target) :: (run Runtime.step s calls).handles

/-- The linker after the startup loads. -/
inductive StartupLoads : Linker Path → Prop
  | new : StartupLoads (Linker.new Path)
  | load {linker linker' : Linker Path} (world : World Path) (fuel : Nat) (path : Path)
      (requestedName : Option String) (id : Nat) : StartupLoads linker →
      exec (loadGraph world fuel path requestedName) linker = (.ok id, linker') →
      StartupLoads linker'

/-- The number of the first handle. -/
def firstHandle : Nat := 0x1003

/-- Before the first call at run time. -/
structure Started (s : Runtime Path) : Prop where
  loads : StartupLoads s.linker
  nodelete : s.nodelete = []
  handles : s.handles = []
  nextHandle : s.nextHandle = firstHandle

/-! ### The invariant -/

/-- Handles are numbered upwards, and name what is in the tables. -/
structure Inv (s : Runtime Path) : Prop where
  aligned : Aligned s.linker
  targets : ∀ entry ∈ s.handles, s.linker.HasTarget entry.2
  positive : 0 < s.nextHandle
  below : ∀ entry ∈ s.handles, entry.1 < s.nextHandle

section Open

variable {world : RuntimeWorld Path} {fuel : Nat} {flags : BitVec 32} {s s' : Runtime Path}
  {target : RuntimeHandle} {provider : Provider}

omit [DecidableEq Path] in
theorem runInitializers_spec (world : RuntimeWorld Path) (ids : List Nat) (s : Runtime Path)
    (hrun : ∀ id, id ∉ s.initialized → world.construct id = .ok ()) :
    ∃ initialized, runInitializers world ids s = (.ok (), { s with initialized }) := by
  induction ids generalizing s with
  | nil => exact ⟨s.initialized, rfl⟩
  | cons id ids ih =>
    unfold runInitializers
    split
    · exact ih s hrun
    · next hnew =>
      have hid : world.construct id = .ok () := hrun id fun hmem => hnew (.inr hmem)
      simp only [hid]
      exact ih { s with initialized := id :: s.initialized } fun other hother =>
        hrun other fun hmem => hother (List.mem_cons_of_mem _ hmem)

/-- The target is found, with at most what it reaches made visible. -/
structure Found (flags : BitVec 32) (target : RuntimeHandle) (s s' : Runtime Path) : Prop where
  aligned : Aligned s'.linker
  hasTarget : s'.linker.HasTarget target
  grows : ∀ provider, s.linker.InRange provider → s'.linker.InRange provider
  handles : s'.handles = s.handles
  nextHandle : s'.nextHandle = s.nextHandle
  nodelete : s'.nodelete = s.nodelete
  keeps : ∀ provider, s.linker.scope.Visible provider → s'.linker.scope.Visible provider
  visible : ∀ provider, s'.linker.scope.Visible provider → s.linker.scope.Visible provider ∨
    hasFlag flags rtldGlobal = true ∧ s'.linker.ReachedFrom target provider

/-- The call failed and changed nothing, or found a target. -/
def Finds (flags : BitVec 32) (s : Runtime Path)
    (result : Except (OpenError Path) RuntimeHandle × Runtime Path) : Prop :=
  match result with
  | (.error _, s') => s' = s
  | (.ok target, s') => Found flags target s s'

variable {linker : Linker Path}

omit [DecidableEq Path] in
theorem found_of_counts (h : Inv s) (hloaded : LoadedAt s.linker linker provider)
    (hscope : linker.scope.providers = s.linker.scope.providers)
    (hglobals : linker.scope.globals = s.linker.scope.globals)
    (htarget : target.roots = [provider]) : Found flags target s { s with linker } := by
  have hsame : ∀ other, linker.scope.Visible other ↔ s.linker.scope.Visible other := by
    intro other
    unfold Scope.Visible
    rw [hscope, hglobals]
  refine ⟨hloaded.aligned, ?_, fun _ => hloaded.appends.inRange, rfl, rfl, rfl,
    fun other => (hsame other).mpr, fun other hother => .inl ((hsame other).mp hother)⟩
  intro root hroot
  rw [htarget] at hroot
  rw [List.mem_singleton.mp hroot]
  exact hloaded.inRange

omit [DecidableEq Path] in
theorem retainRuntimeTarget_finds (h : Inv s) (htarget : s.linker.HasTarget target)
    (hretain : retainRuntimeTarget s.linker target = .ok linker) :
    Found flags target s { s with linker } := by
  cases target with
  | main =>
    cases hretain
    exact ⟨h.aligned, htarget, fun _ => id, rfl, rfl, rfl, fun _ => id, fun _ => .inl⟩
  | elf id =>
    simp only [retainRuntimeTarget] at hretain
    split at hretain
    · next hid =>
      cases hretain
      exact found_of_counts h (loadedAt_counts h.aligned (map_uncounted_modify _ _ fun _ => rfl) rfl
          (show s.linker.InRange (.elf id) from hid)) rfl rfl rfl
    · cases hretain
  | dll index =>
    simp only [retainRuntimeTarget] at hretain
    cases hdll : s.linker.scope.dlls[index]? with
    | none => simp [hdll] at hretain
    | some dll =>
      simp only [hdll, DllProvider.addReference] at hretain
      split at hretain
      · cases hretain
        exact found_of_counts h (loadedAt_setDll h.aligned hdll rfl) rfl rfl rfl
      · cases hretain

theorem loadedRuntimeTarget_inRange {path : Path}
    (htarget : loadedRuntimeTarget world s path = some target) : s.linker.HasTarget target := by
  unfold loadedRuntimeTarget at htarget
  cases hfind : s.linker.objects.findIdx? (·.path = world.canonicalize path) with
  | some id =>
    simp only [hfind, Option.some.injEq] at htarget
    subst htarget
    obtain ⟨hlt, -, -⟩ := List.findIdx?_eq_some_iff_getElem.mp hfind
    intro root hroot
    rw [List.mem_singleton.mp hroot]
    exact hlt
  | none =>
    simp only [hfind] at htarget
    obtain ⟨entry, hentry, rfl⟩ := Option.map_eq_some_iff.mp htarget
    have hmem := List.mem_zipIdx' (List.mem_of_find?_eq_some hentry)
    intro root hroot
    rw [List.mem_singleton.mp hroot]
    exact hmem.1

omit [DecidableEq Path] in
theorem found_local (h : Inv s) (hloaded : LoadedAt s.linker linker provider) :
    Found flags (.ofProvider provider) s
      { s with linker := hideFrom linker s.linker.scope.providers.length } := by
  refine ⟨hloaded.aligned.hideFrom _, ?_, fun _ => hloaded.appends.inRange, rfl, rfl, rfl,
    fun other => (hloaded.appends.visible_hideFrom h.aligned).mpr,
    fun other hother => .inl ((hloaded.appends.visible_hideFrom h.aligned).mp hother)⟩
  intro root hroot
  rw [RuntimeHandle.roots_ofProvider, List.mem_singleton] at hroot
  rw [hroot]
  exact hloaded.inRange

omit [DecidableEq Path] in
theorem found_global (h : Inv s) {shown : Linker Path}
    (hloaded : LoadedAt s.linker linker provider) (hglobal : hasFlag flags rtldGlobal = true)
    (haligned : Aligned shown) (hin : ∀ other, linker.InRange other ↔ shown.InRange other)
    (hreach : ∀ other, linker.Reaches provider other → shown.Reaches provider other)
    (hkeeps : ∀ other, linker.scope.Visible other → shown.scope.Visible other)
    (hshown : ∀ other, shown.scope.Visible other → linker.scope.Visible other ∨
      linker.Reaches provider other) :
    Found flags (.ofProvider provider) s { s with linker := shown } := by
  have hreached : ∀ other, linker.Reaches provider other →
      shown.ReachedFrom (.ofProvider provider) other := fun other hother =>
    ⟨provider, by simp, hreach other hother⟩
  refine ⟨haligned, ?_, fun other hother => (hin other).mp (hloaded.appends.inRange hother), rfl,
    rfl, rfl, fun other hother => hkeeps other
      ((hloaded.appends.visible h.aligned hloaded.aligned).mpr (.inl hother)),
    fun other hother => ?_⟩
  · intro root hroot
    rw [RuntimeHandle.roots_ofProvider, List.mem_singleton] at hroot
    rw [hroot]
    exact (hin provider).mp hloaded.inRange
  · rcases hshown other hother with hold | hreach'
    · rcases (hloaded.appends.visible h.aligned hloaded.aligned).mp hold with hold | ⟨hnow, hnew⟩
      · exact .inl hold
      · exact .inr ⟨hglobal, hreached other (hloaded.reached other hnow hnew)⟩
    · exact .inr ⟨hglobal, hreached other hreach'⟩

omit [DecidableEq Path] in
theorem Found.initialized (h : Found flags target s s') (initialized order : List Nat) :
    Found flags target s { s' with initialized, initializationOrder := order } :=
  { h with }

omit [DecidableEq Path] in
theorem linkTarget_finds (h : Inv s) (hloaded : LoadedAt s.linker linker provider)
    (hrun : ∀ id, id ∉ s.initialized → world.construct id = .ok ()) :
    Finds flags s (linkTarget world flags (.ofProvider provider) s linker) := by
  unfold linkTarget
  simp only []
  have htaken := unpublish_published linker (.ofProvider provider) s.linker.scope.providers.length
  have hscope := publish_scope linker (.ofProvider provider) s.linker.scope.providers.length
  have hshown := hloaded.aligned.publish (.ofProvider provider) s.linker.scope.providers.length
  have htarget : linker.HasTarget (.ofProvider provider) := by
    intro root hroot
    rw [RuntimeHandle.roots_ofProvider, List.mem_singleton] at hroot
    rw [hroot]
    exact hloaded.inRange
  cases hlinked : world.relocate (publishExistingDependencies linker (.ofProvider provider)
      s.linker.scope.providers.length).1 s.linker.objects.length
      (if hasFlag flags rtldDeepbind = true then
        runtimeProviderClosure (publishExistingDependencies linker (.ofProvider provider)
          s.linker.scope.providers.length).1 (.ofProvider provider) else []) with
  | error e =>
    simp only [Finds]
    by_cases hglobal : hasFlag flags rtldGlobal = true
    · rw [if_pos hglobal]
      exact restore_capture h.aligned hloaded.appends _ hscope.dlls
    · rw [if_neg hglobal, htaken]
      exact restore_capture h.aligned hloaded.appends linker.scope rfl
  | ok _ =>
    simp only []
    by_cases hglobal : hasFlag flags rtldGlobal = true
    · simp only [if_pos hglobal]
      obtain ⟨initialized, hdone⟩ := runInitializers_spec world
        (computeInitializationOrder (publishExistingDependencies linker (.ofProvider provider)
          s.linker.scope.providers.length).1)
        { s with linker := (publishExistingDependencies linker (.ofProvider provider)
                   s.linker.scope.providers.length).1,
                 initializationOrder := computeInitializationOrder
                   (publishExistingDependencies linker (.ofProvider provider)
                     s.linker.scope.providers.length).1 } hrun
      rw [hdone]
      refine (found_global h hloaded hglobal hshown (fun _ => publish_inRange.symm)
        (fun _ => id) (fun _ => visible_publish) fun other hother => ?_).initialized _ _
      refine (visible_published hother).imp_right fun hmem => ?_
      obtain ⟨root, hroot, hreach⟩ := (mem_runtimeProviderClosure hloaded.aligned htarget).mp hmem
      rw [RuntimeHandle.roots_ofProvider, List.mem_singleton] at hroot
      exact hroot ▸ hreach
    · simp only [if_neg hglobal, htaken]
      obtain ⟨initialized, hdone⟩ := runInitializers_spec world
        (computeInitializationOrder (hideFrom linker s.linker.scope.providers.length))
        { s with linker := hideFrom linker s.linker.scope.providers.length,
                 initializationOrder := computeInitializationOrder
                   (hideFrom linker s.linker.scope.providers.length) } hrun
      rw [hdone]
      exact (found_local h hloaded).initialized _ _

theorem loadTarget_finds (h : Inv s) (candidate : Path) (requested : String)
    (hrun : ∀ id, id ∉ s.initialized → world.construct id = .ok ()) :
    Finds flags s (loadTarget world fuel candidate requested flags s) := by
  have hload := loadCandidate_loads world.toWorld
    (fun path name bytes => loadGraphImage_loads world.toWorld fuel path name bytes) candidate
    requested s.linker h.aligned
  unfold loadTarget
  unfold wp at hload
  generalize exec (loadCandidate world.toWorld (loadGraphImage world.toWorld fuel) candidate
    requested) s.linker = result at hload ⊢
  obtain ⟨outcome, linker⟩ := result
  cases outcome with
  | error e => exact restore_capture h.aligned hload linker.scope rfl
  | ok provider =>
    simp only [id] at hload ⊢
    split
    · exact linkTarget_finds h hload hrun
    by_cases hglobal : hasFlag flags rtldGlobal = true
    · simp only [if_pos hglobal, Finds]
      exact found_global h hload hglobal hload.aligned (fun _ => Iff.rfl) (fun _ => id)
        (fun _ => id) fun _ => .inl
    · simp only [if_neg hglobal, Finds]
      exact found_local h hload

theorem openTarget_finds (h : Inv s) (path : Path)
    (hrun : ∀ id, id ∉ s.initialized → world.construct id = .ok ()) :
    Finds flags s (openTarget world fuel path flags s) := by
  unfold openTarget
  cases findRuntimeCandidate world s.linker path with
  | error e => exact rfl
  | ok candidate =>
    simp only []
    split
    · cases hloaded : loadedRuntimeTarget world s candidate with
      | none => exact rfl
      | some target =>
        simp only []
        cases hretain : retainRuntimeTarget s.linker target with
        | error e => exact rfl
        | ok linker =>
          exact retainRuntimeTarget_finds h (loadedRuntimeTarget_inRange hloaded) hretain
    · exact loadTarget_finds h candidate (world.displayName path) hrun

omit [DecidableEq Path] in
theorem Inv.unused (h : Inv s) : s.nextHandle ∉ s.handles.map Prod.fst := by
  intro hmem
  obtain ⟨entry, hentry, heq⟩ := List.mem_map.mp hmem
  have hlt := h.below entry hentry
  omega

omit [DecidableEq Path] in
theorem allocateRuntimeHandle_spec {number : Nat} (fuel : Nat) (hnumber : s.nextHandle = number)
    (hpos : 0 < number) (hfree : number ∉ s.handles.map Prod.fst) :
    allocateRuntimeHandle target (fuel + 1) s = (.ok number, { s with
        handles := (number, target) :: s.handles
        nextHandle := (number + 0x10) % usize }) := by
  subst hnumber
  have hfilter : s.handles.filter (·.1 ≠ s.nextHandle) = s.handles := by
    rw [List.filter_eq_self]
    intro entry hentry
    have hne : entry.1 ≠ s.nextHandle := fun heq => hfree (heq ▸ List.mem_map_of_mem hentry)
    simpa using hne
  unfold allocateRuntimeHandle
  rw [if_neg (by omega)]
  simp only [hfree, if_false, hfilter]

omit [DecidableEq Path] in
theorem markRuntimeNodelete_spec (htarget : s.linker.HasTarget target) :
    ∃ nodelete, markRuntimeNodelete s target = .ok { s with nodelete } := by
  cases target with
  | main => exact ⟨s.nodelete, rfl⟩
  | elf id =>
    have hlt : id < s.linker.objects.length := htarget (.elf id) (by simp [RuntimeHandle.roots])
    exact ⟨_, by rw [markRuntimeNodelete, if_pos hlt]⟩
  | dll index =>
    have hlt : index < s.linker.scope.dlls.length :=
      htarget (.dll index) (by simp [RuntimeHandle.roots])
    exact ⟨_, by rw [markRuntimeNodelete, if_pos hlt]⟩

/-- The open handed out the next number, for the target it found. -/
structure Opened (flags : BitVec 32) (target : RuntimeHandle) (s s' : Runtime Path) : Prop where
  aligned : Aligned s'.linker
  hasTarget : s'.linker.HasTarget target
  grows : ∀ provider, s.linker.InRange provider → s'.linker.InRange provider
  handles : s'.handles = (s.nextHandle, target) :: s.handles
  nextHandle : s'.nextHandle = (s.nextHandle + 0x10) % usize
  visible : ∀ provider, s'.linker.scope.Visible provider ↔ s.linker.scope.Visible provider ∨
    hasFlag flags rtldGlobal = true ∧ s'.linker.ReachedFrom target provider

omit [DecidableEq Path] in
theorem publishTarget_spec (h : Inv s) (hfound : Found flags target s s') :
    ∃ s'', publishTarget flags target s' = (.ok s.nextHandle, s'') ∧ Opened flags target s s'' := by
  have hmark : ∃ nodelete, (if hasFlag flags rtldNodelete = true then
      markRuntimeNodelete s' target else .ok s') = .ok { s' with nodelete } := by
    split
    · exact markRuntimeNodelete_spec hfound.hasTarget
    · exact ⟨s'.nodelete, rfl⟩
  obtain ⟨nodelete, hmark⟩ := hmark
  have hunused : s.nextHandle ∉ s'.handles.map Prod.fst := by
    rw [hfound.handles]
    exact h.unused
  have hhandles : ∀ target, (s.nextHandle, target) :: s'.handles =
      (s.nextHandle, target) :: s.handles := fun target => by rw [hfound.handles]
  unfold publishTarget
  rw [hmark]
  simp only []
  by_cases hglobal : hasFlag flags rtldGlobal = true
  · simp only [if_pos hglobal]
    refine ⟨_, allocateRuntimeHandle_spec _ hfound.nextHandle h.positive hunused, ?_⟩
    refine ⟨hfound.aligned.promote target, fun root hroot =>
      promote_inRange.mpr (hfound.hasTarget root hroot), fun other hother =>
      promote_inRange.mpr (hfound.grows other hother), hhandles target, rfl, fun other => ?_⟩
    refine (visible_promote hfound.aligned hfound.hasTarget).trans ⟨?_, ?_⟩
    · rintro (hreached | hvisible)
      · exact .inr ⟨hglobal, hreached⟩
      · exact hfound.visible other hvisible
    · rintro (hvisible | ⟨-, hreached⟩)
      · exact .inr (hfound.keeps other hvisible)
      · exact .inl hreached
  · simp only [if_neg hglobal]
    refine ⟨_, allocateRuntimeHandle_spec _ hfound.nextHandle h.positive hunused, ?_⟩
    refine ⟨hfound.aligned, hfound.hasTarget, hfound.grows, hhandles target, rfl, fun other => ?_⟩
    refine ⟨hfound.visible other, ?_⟩
    rintro (hvisible | ⟨hflag, -⟩)
    · exact hfound.keeps other hvisible
    · exact absurd hflag hglobal

theorem openRuntime_spec (h : Inv s) (fuel : Nat) (path : Option Path) (flags : BitVec 32)
    (hrun : ∀ id, id ∉ s.initialized → world.construct id = .ok ()) :
    (∃ e, openRuntime world fuel path flags s = (.error e, s)) ∨
      ∃ target s', openRuntime world fuel path flags s = (.ok s.nextHandle, s') ∧
        Opened flags target s s' := by
  have hfinish : ∀ result, Finds flags s result →
      let finished : Except (OpenError Path) Nat × Runtime Path := match result with
        | (.error e, s) => (.error e, s)
        | (.ok target, s) => publishTarget flags target s
      (∃ e, finished = (.error e, s)) ∨
        ∃ target s', finished = (.ok s.nextHandle, s') ∧ Opened flags target s s' := by
    rintro ⟨outcome, s'⟩ hfinds
    cases outcome with
    | error e => exact .inl ⟨e, by rw [show s' = s from hfinds]⟩
    | ok target =>
      obtain ⟨s'', hpublish, hopened⟩ := publishTarget_spec h hfinds
      exact .inr ⟨target, s'', hpublish, hopened⟩
  unfold openRuntime
  split
  · exact .inl ⟨_, rfl⟩
  · cases path with
    | none =>
      have hmain : s.linker.HasTarget .main := fun _ hroot => (List.not_mem_nil hroot).elim
      exact hfinish (.ok .main, s)
        ⟨h.aligned, hmain, fun _ => id, rfl, rfl, rfl, fun _ => id, fun _ => .inl⟩
    | some path => exact hfinish _ (openTarget_finds h path hrun)

end Open

/-! ### Closing -/

section Close

variable {s : Runtime Path} {handle : Nat} {provider : Provider}

omit [DecidableEq Path] in
theorem mem_of_lookup {entries : List (Nat × RuntimeHandle)} {target : RuntimeHandle}
    (h : entries.lookup handle = some target) : (handle, target) ∈ entries := by
  obtain ⟨before, after, rfl, -⟩ := List.lookup_eq_some_iff.mp h
  simp

omit [DecidableEq Path] in
theorem isLoaded_release {index : Nat} {dll : DllProvider} :
    s.isLoaded index dll.release = true ↔ 2 ≤ dll.references ∨ .dll index ∈ s.nodelete := by
  have hcount : dll.references - 1 ≠ 0 ↔ 2 ≤ dll.references := by omega
  simp only [Runtime.isLoaded, DllProvider.release, Bool.or_eq_true, decide_eq_true_eq, hcount]

/-- The close keeps the tables in step, and hides what `Hides` says. -/
structure Closed (handle : Nat) (s s' : Runtime Path) : Prop where
  aligned : Aligned s'.linker
  inRange : ∀ provider, s'.linker.InRange provider ↔ s.linker.InRange provider
  handles : s'.handles ⊆ s.handles
  nextHandle : s'.nextHandle = s.nextHandle
  visible : ∀ provider, s'.linker.scope.Visible provider ↔
    s.linker.scope.Visible provider ∧ ¬Hides provider s (.dlclose handle)

omit [DecidableEq Path] in
theorem closed_of_counts (h : Inv s) {handles : List (Nat × RuntimeHandle)}
    (hhandles : handles ⊆ s.handles) {objects : List (MappedObject Path)} {dlls : List DllProvider}
    (hobjects : objects.length = s.linker.objects.length)
    (hdlls : dlls.length = s.linker.scope.dlls.length)
    (hnot : ∀ provider, ¬Hides provider s (.dlclose handle)) :
    Closed handle s { s with
      handles
      linker := { s.linker with objects, scope := { s.linker.scope with dlls } } } :=
  ⟨h.aligned.counts hobjects hdlls, fun provider => by
      cases provider <;> simp [Linker.InRange, hobjects, hdlls], hhandles, rfl,
    fun provider => (and_iff_left (hnot provider)).symm⟩

omit [DecidableEq Path] in
theorem closeRuntime_spec (h : Inv s) (handle : Nat) : Closed handle s (closeRuntime handle s).2
    := by
  have hother : ∀ {target : RuntimeHandle}, s.handles.lookup handle = some target →
      (∀ index, target ≠ .dll index) → ∀ provider, ¬Hides provider s (.dlclose handle) := by
    rintro target hlookup hne provider ⟨⟨index, dll, -, hdll, -⟩, -⟩
    rw [hlookup] at hdll
    exact hne index (Option.some.inj hdll)
  have hsub : (s.handles.filter (·.1 ≠ handle)) ⊆ s.handles := List.filter_subset_self _
  unfold closeRuntime
  cases hlookup : s.handles.lookup handle with
  | none =>
    refine ⟨h.aligned, fun _ => Iff.rfl, List.Subset.refl _, rfl, fun provider => ?_⟩
    refine (and_iff_left ?_).symm
    rintro ⟨⟨index, dll, -, hdll, -⟩, -⟩
    rw [hlookup] at hdll
    cases hdll
  | some target =>
    have htarget := h.targets _ (mem_of_lookup hlookup)
    cases target with
    | main => exact closed_of_counts h hsub rfl rfl (hother hlookup (by simp))
    | elf id =>
      have hlt : id < s.linker.objects.length := htarget (.elf id) (by simp [RuntimeHandle.roots])
      simp only [if_pos hlt]
      exact closed_of_counts h hsub (List.length_modify _ _ _) rfl (hother hlookup (by simp))
    | dll index =>
      have hlt : index < s.linker.scope.dlls.length :=
        htarget (.dll index) (by simp [RuntimeHandle.roots])
      have hdll := List.getElem?_eq_getElem hlt
      have hhides : ∀ provider, Hides provider s (.dlclose handle) ↔
          provider = .dll index ∧ (s.linker.scope.dlls[index]).references ≤ 1 ∧
            .dll index ∉ s.nodelete := by
        intro provider
        constructor
        · rintro ⟨⟨other, dll, rfl, hto, hget, hlast⟩, hkept⟩
          rw [hlookup] at hto
          cases hto
          rw [hdll] at hget
          cases hget
          exact ⟨rfl, hlast, hkept⟩
        · rintro ⟨rfl, hlast, hkept⟩
          exact ⟨⟨index, _, rfl, hlookup, hdll, hlast⟩, hkept⟩
      simp only [hdll]
      split
      · next hloaded =>
        refine closed_of_counts h hsub rfl (List.length_set) fun provider hhide => ?_
        obtain ⟨-, hlast, hkept⟩ := (hhides provider).mp hhide
        rcases isLoaded_release.mp hloaded with hcount | hmem
        · omega
        · exact hkept hmem
      · next hgone =>
        have hlast : (s.linker.scope.dlls[index]).references ≤ 1 ∧ .dll index ∉ s.nodelete := by
          rw [isLoaded_release, not_or] at hgone
          exact ⟨by omega, hgone.2⟩
        have hset : Aligned (setDll s.linker index (s.linker.scope.dlls[index]).release) :=
          h.aligned.counts rfl List.length_set
        refine ⟨hset.rescope rfl rfl (length_globals_setGlobal _ _ _), fun provider => ?_,
          hsub, rfl, fun provider => ?_⟩
        · cases provider <;> simp [Linker.InRange, hideFacade, setDll, Scope.setGlobal]
        · refine (visible_setGlobal hset.globals).trans ?_
          rw [hhides]
          by_cases hsame : provider = .dll index
          · simp [hsame, hlast]
          · simp only [hsame, if_false, false_and, not_false_eq_true, and_true]
            rfl

end Close

/-! ### Runs -/

section Runs

variable {s : Runtime Path}

/-- A call that the number of handles leaves room for. -/
def Roomy (s : Runtime Path) (call : RuntimeCall Path) : Prop :=
  ConstructorsRun s call ∧ s.nextHandle + 0x10 < usize

theorem Inv.step (h : Inv s) (call : RuntimeCall Path) (hok : Roomy s call) :
    Inv (s.step call) := by
  cases call with
  | dlclose handle =>
    have hclosed := closeRuntime_spec h handle
    refine ⟨hclosed.aligned, fun entry hentry root hroot => (hclosed.inRange root).mpr
      (h.targets entry (hclosed.handles hentry) root hroot), ?_, fun entry hentry => ?_⟩
    · exact hclosed.nextHandle ▸ h.positive
    · exact hclosed.nextHandle ▸ h.below entry (hclosed.handles hentry)
  | dlopen world fuel path flags =>
    rcases openRuntime_spec h fuel path flags hok.1 with
      ⟨e, hfailed⟩ | ⟨target, s', hdone, hopened⟩
    · rw [Runtime.step, hfailed]
      exact h
    have hnext : s'.nextHandle = s.nextHandle + 0x10 := by
      rw [hopened.nextHandle, Nat.mod_eq_of_lt hok.2]
    rw [Runtime.step, hdone]
    refine ⟨hopened.aligned, fun entry hentry root hroot => ?_, by simp only [hnext]; omega,
      fun entry hentry => ?_⟩
    · rw [hopened.handles] at hentry
      rcases List.mem_cons.mp hentry with rfl | hentry
      · exact hopened.hasTarget root hroot
      · exact hopened.grows root (h.targets entry hentry root hroot)
    · rw [hopened.handles] at hentry
      simp only [hnext]
      rcases List.mem_cons.mp hentry with rfl | hentry
      · exact Nat.lt_add_of_pos_right (by decide)
      · exact Nat.lt_add_right _ (h.below entry hentry)

theorem Inv.nextHandle_step (h : Inv s) (call : RuntimeCall Path) (hok : ConstructorsRun s call) :
    (s.step call).nextHandle ≤ s.nextHandle + 0x10 := by
  cases call with
  | dlclose handle =>
    have hclosed := closeRuntime_spec h handle
    rw [Runtime.step, hclosed.nextHandle]
    exact Nat.le_add_right _ _
  | dlopen world fuel path flags =>
    rcases openRuntime_spec h fuel path flags hok with
      ⟨e, hfailed⟩ | ⟨target, s', hdone, hopened⟩
    · rw [Runtime.step, hfailed]
      exact Nat.le_add_right _ _
    · rw [Runtime.step, hdone]
      simp only [hopened.nextHandle]
      exact Nat.mod_le _ _

theorem Inv.visible_step (h : Inv s) (call : RuntimeCall Path) (hok : ConstructorsRun s call)
    (provider : Provider) :
    (s.step call).linker.scope.Visible provider ↔
      Publishes provider s call ∨ s.linker.scope.Visible provider ∧ ¬Hides provider s call := by
  cases call with
  | dlclose handle =>
    refine ((closeRuntime_spec h handle).visible provider).trans ?_
    exact (iff_of_eq (false_or _)).symm
  | dlopen world fuel path flags =>
    have hnot : ¬Hides provider s (.dlopen world fuel path flags) := fun hhides => hhides.1
    rw [and_iff_left hnot]
    rcases openRuntime_spec h fuel path flags hok with
      ⟨e, hfailed⟩ | ⟨target, s', hdone, hopened⟩
    · have hnone : ¬Publishes provider s (.dlopen world fuel path flags) := by
        rintro ⟨-, handle, target, hhandle, -⟩
        rw [hfailed] at hhandle
        cases hhandle
      rw [Runtime.step, hfailed]
      exact (or_iff_right hnone).symm
    have hlookup : s'.handles.lookup s.nextHandle = some target := by
      rw [hopened.handles]
      simp
    rw [Runtime.step, hdone, hopened.visible, or_comm]
    refine or_congr_left ⟨fun ⟨hglobal, hreached⟩ => ?_, ?_⟩
    · refine ⟨hglobal, s.nextHandle, target, ?_, ?_, ?_⟩ <;> rw [hdone]
      · exact hlookup
      · exact hreached
    rintro ⟨hglobal, handle, other, hhandle, hother, hreached⟩
    rw [hdone] at hhandle hother hreached
    cases hhandle
    rw [hlookup] at hother
    cases hother
    exact ⟨hglobal, hreached⟩

theorem everyStep_roomy (h : Inv s) {calls : List (RuntimeCall Path)}
    (hok : EveryStep Runtime.step ConstructorsRun s calls)
    (hcount : s.nextHandle + 0x10 * calls.length < usize) :
    EveryStep Runtime.step Roomy s calls := by
  induction calls generalizing s with
  | nil => trivial
  | cons call calls ih =>
    rw [List.length_cons] at hcount
    have hroomy : Roomy s call := ⟨hok.1, by omega⟩
    have hnext := h.nextHandle_step call hok.1
    exact ⟨hroomy, ih (h.step call hroomy) hok.2 (by omega)⟩

theorem startup_aligned {linker : Linker Path} (h : StartupLoads linker) :
    Aligned linker ∧ ∀ provider, linker.scope.Visible provider ↔ linker.InRange provider := by
  induction h with
  | new =>
    refine ⟨⟨rfl, rfl, List.nodup_nil, fun provider => ?_, fun _ hmem =>
      (List.not_mem_nil hmem).elim⟩, fun provider => ?_⟩
    · cases provider <;> simp [Linker.new, Linker.InRange]
    · cases provider <;> simp [Linker.new, Linker.InRange, Scope.Visible]
  | @load linker linker' world fuel path requestedName id _ hload ih =>
    have hwp := loadGraphImage_loads world fuel path requestedName none linker ih.1
    have hspec : LoadedAt linker linker' (.elf id) := by
      have hrun : exec (loadGraphImage world fuel path requestedName none) linker =
          (.ok id, linker') := hload
      rwa [wp, hrun] at hwp
    refine ⟨hspec.aligned, fun provider => ?_⟩
    rw [hspec.appends.visible ih.1 hspec.aligned, ih.2]
    by_cases hold : linker.InRange provider
    · exact iff_of_true (.inl hold) (hspec.appends.inRange hold)
    · simp [hold]

theorem Started.inv (h : Started s) : Inv s := by
  refine ⟨(startup_aligned h.loads).1, ?_, by rw [h.nextHandle]; decide, ?_⟩ <;>
    rw [h.handles] <;> exact fun _ hmem => (List.not_mem_nil hmem).elim

/-- Where constructors run and handle numbers last, opening is atomic and visibility exact. -/
theorem dlopen_exact (hstart : Started s) (calls : List (RuntimeCall Path))
    (hok : EveryStep Runtime.step ConstructorsRun s calls)
    (hcount : firstHandle + 0x10 * calls.length < usize) : Exact ConstructorsRun Hides s calls := by
  have hinv := hstart.inv
  rw [← hstart.nextHandle] at hcount
  have hroomy := everyStep_roomy hinv hok hcount
  have hfinal : Inv (run Runtime.step s calls) :=
    run_preserves (fun _ call h hcall => h.step call hcall) hinv hroomy
  refine ⟨hfinal.aligned, fun provider => ?_, fun world fuel path flags error hrun hfailed => ?_,
    fun world fuel path flags handle hrun hdone => ?_⟩
  · rw [← (startup_aligned hstart.loads).2]
    exact run_iff_since (I := Inv) (P := fun s => s.linker.scope.Visible provider)
      (fun _ call h hcall => h.step call hcall)
      (fun _ call h hcall => h.visible_step call hcall.1 provider) hinv hroomy
  · rcases openRuntime_spec hfinal fuel path flags hrun with
      ⟨e, heq⟩ | ⟨target, s', heq, -⟩
    · rw [heq]
    · rw [heq] at hfailed
      cases hfailed
  · rcases openRuntime_spec hfinal fuel path flags hrun with
      ⟨e, heq⟩ | ⟨target, s', heq, hopened⟩
    · rw [heq] at hdone
      cases hdone
    · rw [heq] at hdone ⊢
      cases hdone
      exact ⟨hfinal.unused, target, hopened.handles⟩

end Runs

/-! ### A facade that stays, and a constructor that fails -/

/-- A file system of one facade and any number of plain objects, in which a name is a path. -/
def plainWorld : RuntimeWorld String where
  registered _ := .ok none
  registeredAt path := .ok (if path = "facade" then some ⟨"facade"⟩ else none)
  canonicalize path := path
  parent path := path
  join _ name := name
  fileName path := some path
  displayName path := path
  readElf _ := .ok []
  mapImage _ _ := .ok ⟨none, [], none⟩
  resolveCandidate path := some path
  expandSearchPath _ _ := []
  libraryPaths := []
  extra := []
  systemPaths := []
  registeredPath path _ := if path = "facade" then some path else none
  bare _ := true
  text path := path
  facadePath soname := soname
  isExecutable _ := false
  relocate _ _ _ := .ok ()
  construct _ := .ok ()

/-- The same files, with constructors that fail. -/
def failingWorld : RuntimeWorld String :=
  { plainWorld with construct := fun _ => .error (.invalidImage "init") }

/-- Nothing is loaded at startup. -/
def emptyStart : Runtime String where
  linker := Linker.new String
  nodelete := []
  initialized := []
  initializationOrder := []
  handles := []
  nextHandle := firstHandle

theorem emptyStart_started : Started emptyStart := ⟨.new, rfl, rfl, rfl⟩

/-- Open the facade for good, and close it. -/
def openThenClose : List (RuntimeCall String) :=
  [.dlopen plainWorld 1 (some "facade") (rtldNow ||| rtldGlobal ||| rtldNodelete),
    .dlclose firstHandle]

theorem dlopen_exact_openThenClose : Exact ConstructorsRun Hides emptyStart openThenClose :=
  dlopen_exact emptyStart_started openThenClose ⟨fun _ _ => rfl, trivial, trivial⟩ (by decide)

/-- The closed facade is still visible, and a failed constructor leaves its object behind. -/
theorem dlopen_inexact : ¬Exact ConstructorsRun ClosesToZero emptyStart openThenClose ∧
      ¬Exact (fun _ _ => True) Hides emptyStart [] := by
  constructor
  · intro h
    have hvisible : (run Runtime.step emptyStart openThenClose).linker.scope.Visible (.dll 0) :=
      ⟨0, by decide, by decide⟩
    have hsince := (h.visible (.dll 0)).mp hvisible
    rw [openThenClose, since_cons, since_cons, since_nil] at hsince
    rcases hsince with hpublished | ⟨-, hkept⟩
    · exact hpublished
    · exact hkept ⟨0, ⟨"facade", 1⟩, rfl, by decide, by decide, by decide⟩
  · intro h
    have hsame := h.failed failingWorld 1 (some "plugin") rtldNow (.link (.invalidImage "init"))
      trivial (by decide)
    have hlength := congrArg (fun s : Runtime String => s.linker.objects.length) hsame
    revert hlength
    decide

end Kinakaze.Linker
