import Kinakaze.Linker.LoadFrame

/-!
# Which providers the process-wide scope shows

* `mem_runtimeProviderClosure`: the closure is what the target reaches.
-/

namespace Kinakaze.Linker

open Library

variable {Path : Type}

/-- A search of the process-wide scope meets the provider. -/
def Scope.Visible (scope : Scope) (provider : Provider) : Prop :=
  ∃ index : Nat, scope.providers[index]? = some provider ∧ scope.globals[index]? = some true

/-- The target, or something it depends on. -/
def Linker.ReachedFrom (linker : Linker Path) (target : RuntimeHandle) (provider : Provider) :
    Prop :=
  ∃ root ∈ target.roots, linker.Reaches root provider

/-- The target is an entry of its table. -/
def Linker.HasTarget (linker : Linker Path) (target : RuntimeHandle) : Prop :=
  ∀ root ∈ target.roots, linker.InRange root

section Closure

variable {linker : Linker Path} {target : RuntimeHandle} {provider other : Provider}

theorem Aligned.next_inRange (h : Aligned linker) (hnext : other ∈ linker.dependenciesOf provider) :
    linker.InRange other := by
  cases provider with
  | dll index => cases hnext
  | elf id =>
    simp only [Linker.dependenciesOf, List.getD_eq_getElem?_getD] at hnext
    cases hget : linker.providerDependencies[id]? with
    | none => simp [hget] at hnext
    | some providers =>
      rw [hget] at hnext
      exact h.recorded providers (List.mem_of_getElem? hget) other hnext

theorem Aligned.reached_inRange (h : Aligned linker) (hin : linker.InRange provider)
    (hreach : linker.Reaches provider other) : linker.InRange other := by
  induction hreach with
  | refl => exact hin
  | tail _ hnext _ => exact h.next_inRange hnext

theorem mem_runtimeProviderClosure (h : Aligned linker) (htarget : linker.HasTarget target) :
    provider ∈ runtimeProviderClosure linker target ↔ linker.ReachedFrom target provider := by
  have hclosed : ClosedUnder linker.dependenciesOf linker.scope.providers :=
    fun _ _ next hnext => (h.providers next).mpr (h.next_inRange hnext)
  have hone : ∀ root, target.roots = [root] →
      (provider ∈ runtimeProviderClosure linker target ↔ linker.ReachedFrom target provider) := by
    intro root hroot
    have hin : root ∈ linker.scope.providers := (h.providers root).mpr (htarget root (by simp [hroot]))
    have hfuel : workLeft linker.dependenciesOf linker.scope.providers [] [root] ≤
        (linker.scope.providers.map fun provider =>
          (linker.dependenciesOf provider).length).sum + 1 := by
      simp [workLeft, Nat.add_comm]
    have hfollows := closure_follows hclosed hin hfuel
    rw [runtimeProviderClosure, hroot, hfollows.mem_iff breadthNext_lists]
    simp [Linker.ReachedFrom, Linker.Reaches, hroot]
  cases target with
  | main => simp [runtimeProviderClosure, Library.closure, RuntimeHandle.roots, Linker.ReachedFrom]
  | elf id => exact hone (.elf id) rfl
  | dll index => exact hone (.dll index) rfl

end Closure

section Flags

variable {scope : Scope} {provider other : Provider} {flag : Bool}

@[simp] theorem providers_setGlobal (scope : Scope) (provider : Provider) (flag : Bool) :
    (scope.setGlobal provider flag).providers = scope.providers := rfl

@[simp] theorem length_globals_setGlobal (scope : Scope) (provider : Provider) (flag : Bool) :
    (scope.setGlobal provider flag).globals.length = scope.globals.length := by
  simp [Scope.setGlobal]

theorem visible_setGlobal (hlength : scope.globals.length = scope.providers.length) :
    (scope.setGlobal provider flag).Visible other ↔
      if other = provider then flag = true ∧ other ∈ scope.providers
      else scope.Visible other := by
  have hget : ∀ index : Nat, scope.providers[index]? = some other →
      ((scope.setGlobal provider flag).globals[index]? = some true ↔
        if other = provider then flag = true else scope.globals[index]? = some true) := by
    intro index hindex
    have hlt : index < scope.globals.length := by
      rw [hlength]
      exact (List.getElem?_eq_some_iff.mp hindex).1
    simp only [Scope.setGlobal, List.getElem?_mapIdx, hindex, List.getElem?_eq_getElem hlt,
      Option.map_some, Option.some.injEq]
    by_cases hsame : other = provider <;> simp [hsame]
  unfold Scope.Visible
  constructor
  · rintro ⟨index, hindex, hflag⟩
    have hflag' := (hget index hindex).mp hflag
    split
    · next hsame => exact ⟨by simpa [hsame] using hflag', List.mem_of_getElem? hindex⟩
    · next hne => exact ⟨index, hindex, by simpa [hne] using hflag'⟩
  · intro h
    split at h
    · next hsame =>
      obtain ⟨index, hindex⟩ := List.mem_iff_getElem?.mp h.2
      exact ⟨index, hindex, (hget index hindex).mpr (by simp [hsame, h.1])⟩
    · next hne =>
      obtain ⟨index, hindex, hold⟩ := h
      exact ⟨index, hindex, (hget index hindex).mpr (by simp [hne, hold])⟩

@[simp] theorem providers_foldl_setGlobal (l : List Provider) (scope : Scope) (flag : Bool) :
    (l.foldl (·.setGlobal · flag) scope).providers = scope.providers := by
  induction l generalizing scope with
  | nil => rfl
  | cons provider l ih => rw [List.foldl_cons, ih, providers_setGlobal]

theorem length_globals_foldl_setGlobal (l : List Provider) (scope : Scope) (flag : Bool) :
    (l.foldl (·.setGlobal · flag) scope).globals.length = scope.globals.length := by
  induction l generalizing scope with
  | nil => rfl
  | cons provider l ih => rw [List.foldl_cons, ih, length_globals_setGlobal]

theorem visible_foldl_setGlobal (l : List Provider)
    (hlength : scope.globals.length = scope.providers.length) :
    (l.foldl (·.setGlobal · true) scope).Visible other ↔
      other ∈ l ∧ other ∈ scope.providers ∨ scope.Visible other := by
  induction l generalizing scope with
  | nil => simp
  | cons provider l ih =>
    have hlength' : (scope.setGlobal provider true).globals.length =
        (scope.setGlobal provider true).providers.length := by
      rw [length_globals_setGlobal, providers_setGlobal, hlength]
    rw [List.foldl_cons, ih hlength', visible_setGlobal hlength, providers_setGlobal]
    have hmem : scope.Visible other → other ∈ scope.providers :=
      fun ⟨_, hindex, _⟩ => List.mem_of_getElem? hindex
    by_cases hsame : other = provider
    · simp only [hsame, if_true, true_and, List.mem_cons, true_or]
      subst hsame
      tauto
    · simp [hsame]

theorem dlls_foldl_setGlobal (l : List Provider) (scope : Scope) (flag : Bool) :
    (l.foldl (·.setGlobal · flag) scope).dlls = scope.dlls := by
  induction l generalizing scope with
  | nil => rfl
  | cons provider l ih => exact ih (scope.setGlobal provider flag)

end Flags

section Promote

variable {linker : Linker Path} {target : RuntimeHandle} {provider : Provider}

theorem promote_inRange :
    (promoteRuntimeTarget linker target).InRange provider ↔ linker.InRange provider := by
  cases provider with
  | elf id => rfl
  | dll index => simp only [Linker.InRange, promoteRuntimeTarget, dlls_foldl_setGlobal]

theorem Aligned.rescope (h : Aligned linker) {scope : Scope}
    (hproviders : scope.providers = linker.scope.providers) (hdlls : scope.dlls = linker.scope.dlls)
    (hlength : scope.globals.length = linker.scope.globals.length) :
    Aligned { linker with scope } := by
  have hin : ∀ other : Provider,
      Linker.InRange { linker with scope } other ↔ linker.InRange other := by
    intro other
    cases other <;> simp only [Linker.InRange, hdlls]
  refine ⟨h.dependencies, by rw [hlength, hproviders, h.globals], by rw [hproviders]; exact h.nodup,
    fun other => ?_, fun providers hmem other hother =>
      (hin other).mpr (h.recorded providers hmem other hother)⟩
  rw [hproviders, hin]
  exact h.providers other

theorem Aligned.promote (h : Aligned linker) (target : RuntimeHandle) :
    Aligned (promoteRuntimeTarget linker target) :=
  h.rescope (providers_foldl_setGlobal _ _ _) (dlls_foldl_setGlobal _ _ _)
    (length_globals_foldl_setGlobal _ _ _)

/-- `RTLD_GLOBAL` shows the target and what it depends on. -/
theorem visible_promote (h : Aligned linker) (htarget : linker.HasTarget target) :
    (promoteRuntimeTarget linker target).scope.Visible provider ↔
      linker.ReachedFrom target provider ∨ linker.scope.Visible provider := by
  rw [promoteRuntimeTarget, visible_foldl_setGlobal _ h.globals,
    mem_runtimeProviderClosure h htarget]
  have hmem : linker.ReachedFrom target provider → provider ∈ linker.scope.providers := by
    rintro ⟨root, hroot, hreach⟩
    exact (h.providers provider).mpr (h.reached_inRange (htarget root hroot) hreach)
  exact or_congr_left ⟨And.left, fun hreached => ⟨hreached, hmem hreached⟩⟩

end Promote

section Publish

variable {scope : Scope} {state : Scope × List Nat} {l : List Provider} {firstNew : Nat}

/-- The indices noted are those of older providers of `l` whose flag was changed. -/
structure Published (scope : Scope) (firstNew : Nat) (l : List Provider)
    (state : Scope × List Nat) : Prop where
  order : state.1.order = scope.order
  dlls : state.1.dlls = scope.dlls
  providers : state.1.providers = scope.providers
  length : state.1.globals.length = scope.globals.length
  globals : ∀ index : Nat, state.1.globals[index]? =
    if index ∈ state.2 then some true else scope.globals[index]?
  changed : ∀ index ∈ state.2, scope.globals[index]? = some false ∧
    ∃ provider ∈ l, scope.providers[index]? = some provider

variable {provider : Provider}

theorem Published.step (h : Published scope firstNew l state)
    (hmem : provider ∈ l) : Published scope firstNew l (publishProvider firstNew state provider) := by
  unfold publishProvider
  cases hfind : state.1.providers.findIdx? (· = provider) with
  | none => exact h
  | some index =>
    simp only []
    split
    · next hchange =>
      have hold : index ∉ state.2 := by
        intro hin
        have hget := h.globals index
        rw [if_pos hin, hchange.2] at hget
        cases hget
      have hfalse : scope.globals[index]? = some false := by
        have hget := h.globals index
        rwa [if_neg hold, hchange.2, eq_comm] at hget
      refine ⟨h.order, h.dlls, h.providers, (List.length_set).trans h.length,
        fun other => ?_, fun other hother => ?_⟩
      · have hget := h.globals other
        have hlt := (List.getElem?_eq_some_iff.mp hchange.2).1
        rw [List.getElem?_set]
        by_cases hsame : index = other
        · subst hsame
          simp [hlt]
        · have hne : other ≠ index := fun heq => hsame heq.symm
          rw [if_neg hsame, hget]
          simp [hne]
      · rcases List.mem_append.mp hother with hother | hother
        · exact h.changed other hother
        · rw [List.mem_singleton.mp hother]
          obtain ⟨hlt, hget, -⟩ := List.findIdx?_eq_some_iff_getElem.mp hfind
          have hprovider : state.1.providers[index]? = some provider := by
            rw [List.getElem?_eq_getElem hlt]
            exact congrArg some (of_decide_eq_true hget)
          rw [h.providers] at hprovider
          exact ⟨hfalse, provider, hmem, hprovider⟩
    · exact h

theorem published_foldl (scope : Scope) (firstNew : Nat) (l : List Provider) :
    Published scope firstNew l (l.foldl (publishProvider firstNew) (scope, [])) := by
  have hall : ∀ (part : List Provider) (state : Scope × List Nat), part ⊆ l →
      Published scope firstNew l state →
      Published scope firstNew l (part.foldl (publishProvider firstNew) state) := by
    intro part
    induction part with
    | nil => exact fun _ _ h => h
    | cons provider part ih =>
      intro state hsub h
      exact ih _ (fun other hother => hsub (List.mem_cons_of_mem _ hother))
        (h.step (hsub List.mem_cons_self))
  exact hall l (scope, []) (List.Subset.refl l)
    ⟨rfl, rfl, rfl, rfl, fun _ => by simp, fun _ h => (List.not_mem_nil h).elim⟩

theorem getElem?_foldl_set (indices : List Nat) (flags : List Bool) (index : Nat) :
    (indices.foldl (·.set · false) flags)[index]? =
      if index ∈ indices then flags[index]?.map fun _ => false else flags[index]? := by
  induction indices generalizing flags with
  | nil => simp
  | cons first indices ih =>
    rw [List.foldl_cons, ih, List.getElem?_set]
    by_cases hsame : first = index
    · subst hsame
      by_cases hlt : first < flags.length <;> simp [hlt]
    · have hsame' : index ≠ first := fun heq => hsame heq.symm
      simp [hsame, hsame']

theorem unpublish_published (linker : Linker Path) (target : RuntimeHandle) (firstNew : Nat) :
    unpublish (publishExistingDependencies linker target firstNew).1
      (publishExistingDependencies linker target firstNew).2 = linker := by
  have h := published_foldl linker.scope firstNew (runtimeProviderClosure linker target)
  have hglobals : ((runtimeProviderClosure linker target).foldl (publishProvider firstNew)
      (linker.scope, [])).2.foldl (·.set · false) ((runtimeProviderClosure linker target).foldl
        (publishProvider firstNew) (linker.scope, [])).1.globals = linker.scope.globals := by
    apply List.ext_getElem?
    intro index
    rw [getElem?_foldl_set, h.globals index]
    split
    · next hmem => simp [(h.changed index hmem).1]
    · rfl
  unfold unpublish publishExistingDependencies
  simp only [hglobals, h.order, h.dlls, h.providers]

theorem publish_scope (linker : Linker Path) (target : RuntimeHandle) (firstNew : Nat) :
    Published linker.scope firstNew (runtimeProviderClosure linker target)
      ((publishExistingDependencies linker target firstNew).1.scope,
        (publishExistingDependencies linker target firstNew).2) :=
  published_foldl linker.scope firstNew (runtimeProviderClosure linker target)

variable {linker : Linker Path} {target : RuntimeHandle}

theorem publish_inRange :
    (publishExistingDependencies linker target firstNew).1.InRange provider ↔
      linker.InRange provider := by
  cases provider with
  | elf id => rfl
  | dll index =>
    have hdlls := (publish_scope linker target firstNew).dlls
    simp only [Linker.InRange]
    rw [show (publishExistingDependencies linker target firstNew).1.scope.dlls =
      linker.scope.dlls from hdlls]

theorem Aligned.publish (h : Aligned linker) (target : RuntimeHandle)
    (firstNew : Nat) : Aligned (publishExistingDependencies linker target firstNew).1 := by
  have hscope := publish_scope linker target firstNew
  exact h.rescope hscope.providers hscope.dlls hscope.length

theorem visible_published
    (hvisible : (publishExistingDependencies linker target firstNew).1.scope.Visible provider) :
    linker.scope.Visible provider ∨ provider ∈ runtimeProviderClosure linker target := by
  have h := published_foldl linker.scope firstNew (runtimeProviderClosure linker target)
  obtain ⟨index, hindex, hflag⟩ := hvisible
  simp only [publishExistingDependencies] at hindex hflag
  rw [h.providers] at hindex
  rw [h.globals index] at hflag
  split at hflag
  · next hmem =>
    obtain ⟨-, other, hother, hget⟩ := h.changed index hmem
    rw [hindex] at hget
    cases hget
    exact .inr hother
  · exact .inl ⟨index, hindex, hflag⟩

theorem visible_publish (hvisible : linker.scope.Visible provider) :
    (publishExistingDependencies linker target firstNew).1.scope.Visible provider := by
  have h := published_foldl linker.scope firstNew (runtimeProviderClosure linker target)
  obtain ⟨index, hindex, hflag⟩ := hvisible
  refine ⟨index, ?_, ?_⟩
  · simp only [publishExistingDependencies]
    rw [h.providers, hindex]
  · simp only [publishExistingDependencies]
    rw [h.globals index, hflag]
    exact ite_self _

end Publish

/-! ### After a load -/

section Loaded

variable {s linker : Linker Path} {provider : Provider}

theorem Appends.visible (h : Appends s linker) (hs : Aligned s) (hlinker : Aligned linker) :
    linker.scope.Visible provider ↔
      s.scope.Visible provider ∨ linker.InRange provider ∧ ¬s.InRange provider := by
  obtain ⟨more, hmore⟩ := h.providers
  obtain ⟨count, hcount⟩ := h.globals
  have hnodup := hlinker.nodup
  rw [← hmore] at hnodup
  have hdisjoint := List.disjoint_of_nodup_append hnodup
  have hlength : more.length = count := by
    have hsum := hlinker.globals
    rw [hcount, ← hmore, List.length_append, List.length_append, List.length_replicate,
      hs.globals] at hsum
    omega
  rw [← hlinker.providers, ← hs.providers, ← hmore]
  unfold Scope.Visible
  rw [← hmore, hcount]
  constructor
  · rintro ⟨index, hindex, hflag⟩
    by_cases hlt : index < s.scope.providers.length
    · rw [List.getElem?_append_left hlt] at hindex
      rw [List.getElem?_append_left (by rw [hs.globals]; exact hlt)] at hflag
      exact .inl ⟨index, hindex, hflag⟩
    · rw [List.getElem?_append_right (by omega)] at hindex
      have hmem := List.mem_of_getElem? hindex
      exact .inr ⟨List.mem_append_right _ hmem, fun hold => hdisjoint hold hmem⟩
  · rintro (⟨index, hindex, hflag⟩ | ⟨hmem, hnew⟩)
    · refine ⟨index, ?_, ?_⟩
      · rw [List.getElem?_append_left (List.getElem?_eq_some_iff.mp hindex).1, hindex]
      · rw [List.getElem?_append_left (List.getElem?_eq_some_iff.mp hflag).1, hflag]
    · obtain ⟨index, hindex⟩ :=
        List.mem_iff_getElem?.mp ((List.mem_append.mp hmem).resolve_left hnew)
      have hlt := (List.getElem?_eq_some_iff.mp hindex).1
      refine ⟨s.scope.providers.length + index, ?_, ?_⟩
      · rw [List.getElem?_append_right (by omega), Nat.add_sub_cancel_left, hindex]
      · rw [List.getElem?_append_right (by rw [hs.globals]; omega), hs.globals,
          Nat.add_sub_cancel_left, List.getElem?_replicate, if_pos (by omega)]

theorem Aligned.hideFrom (h : Aligned s) (first : Nat) : Aligned (hideFrom s first) :=
  h.rescope rfl rfl (by simp)

theorem Appends.visible_hideFrom (h : Appends s linker) (hs : Aligned s) :
    (Linker.hideFrom linker s.scope.providers.length).scope.Visible provider ↔
      s.scope.Visible provider := by
  obtain ⟨more, hmore⟩ := h.providers
  obtain ⟨count, hcount⟩ := h.globals
  have hget : ∀ index : Nat,
      (Linker.hideFrom linker s.scope.providers.length).scope.globals[index]? = some true ↔
        s.scope.globals[index]? = some true := by
    intro index
    simp only [Linker.hideFrom, List.getElem?_mapIdx, hcount]
    by_cases hlt : index < s.scope.providers.length
    · rw [List.getElem?_append_left (by rw [hs.globals]; exact hlt)]
      simp [Nat.not_le.mpr hlt]
    · have hnone : s.scope.globals[index]? = none :=
        List.getElem?_eq_none (by rw [hs.globals]; exact Nat.not_lt.mp hlt)
      simp [Nat.not_lt.mp hlt, hnone]
  unfold Scope.Visible
  constructor
  · rintro ⟨index, hindex, hflag⟩
    have hflag' := (hget index).mp hflag
    have hlt : index < s.scope.providers.length := by
      rw [← hs.globals]
      exact (List.getElem?_eq_some_iff.mp hflag').1
    refine ⟨index, ?_, hflag'⟩
    simpa only [Linker.hideFrom, ← hmore, List.getElem?_append_left hlt] using hindex
  · rintro ⟨index, hindex, hflag⟩
    refine ⟨index, ?_, (hget index).mpr hflag⟩
    have hlt := (List.getElem?_eq_some_iff.mp hindex).1
    simpa only [Linker.hideFrom, ← hmore, List.getElem?_append_left hlt] using hindex

end Loaded

end Kinakaze.Linker
