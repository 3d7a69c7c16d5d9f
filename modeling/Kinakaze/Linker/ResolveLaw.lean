import Kinakaze.Linker.Resolve

/-!
# The rules of symbol resolution

The scope's searches return the first strong definition along their own order,
or else the first weak one.  The two searches that do not go through that loop
part from the rule: `resolve_symbolic` looks the owner up without a version and
compares versions afterwards, and the search below a handle goes depth first.
-/

namespace Kinakaze.Linker

open Library

variable {Path : Type}

/-! ## Objects -/

section Objects

variable {object : SymbolObject Path} {name : String} {version : Option String}
  {ended : Option (LinkError Path)} {indices : List Nat} {fallback : Option DynamicSymbol}
  {symbol : DynamicSymbol}

theorem scan_eq_none (h : object.scan name version ended indices fallback = .ok none) :
    ended = none ∧ fallback = none ∧ ∀ index ∈ indices, ∃ found,
      object.matchingDefinition index name = .ok found ∧
        ∀ symbol, found = some symbol → versionMatches object symbol version = false := by
  induction indices generalizing fallback with
  | nil =>
    cases ended with
    | some e => simp [SymbolObject.scan] at h
    | none => simpa [SymbolObject.scan] using h
  | cons index rest ih =>
    rw [SymbolObject.scan] at h
    cases hmatch : object.matchingDefinition index name with
    | error e => simp [hmatch] at h
    | ok found =>
      cases found with
      | none =>
        rw [hmatch] at h
        obtain ⟨hended, hfallback, hrest⟩ := ih h
        refine ⟨hended, hfallback, List.forall_mem_cons.mpr ⟨⟨none, hmatch, ?_⟩, hrest⟩⟩
        exact nofun
      | some symbol =>
        cases hversion : versionMatches object symbol version with
        | true => simp [hmatch, hversion] at h
        | false =>
          simp only [hmatch, hversion, Bool.false_eq_true, if_false] at h
          obtain ⟨hended, hfallback, hrest⟩ := ih h
          refine ⟨hended, ?_, List.forall_mem_cons.mpr ⟨⟨some symbol, hmatch, ?_⟩, hrest⟩⟩
          · split at hfallback
            · cases hfallback
            · exact hfallback
          · rintro _ ⟨⟩
            exact hversion

theorem scan_of_readable (hended : ended = none)
    (hread : ∀ index ∈ indices, ∃ found, object.matchingDefinition index name = .ok found) :
    ∃ result, object.scan name version ended indices fallback = .ok result ∧
      ∀ symbol, result = some symbol → fallback = some symbol ∨
        ∃ index ∈ indices, object.matchingDefinition index name = .ok (some symbol) := by
  induction indices generalizing fallback with
  | nil =>
    subst hended
    exact ⟨fallback, rfl, fun symbol hsymbol => .inl hsymbol⟩
  | cons index rest ih =>
    obtain ⟨⟨found, hmatch⟩, hrest⟩ := List.forall_mem_cons.mp hread
    rw [SymbolObject.scan]
    cases found with
    | none =>
      obtain ⟨result, hscan, hfrom⟩ := @ih fallback hrest
      refine ⟨result, by rw [hmatch]; exact hscan, fun symbol hsymbol => ?_⟩
      exact (hfrom symbol hsymbol).imp_right fun ⟨i, hi, hm⟩ =>
        ⟨i, List.mem_cons_of_mem _ hi, hm⟩
    | some own =>
      simp only [hmatch]
      by_cases hversion : versionMatches object own version = true
      · refine ⟨some own, if_pos hversion, ?_⟩
        rintro _ ⟨⟩
        exact .inr ⟨index, List.mem_cons_self, hmatch⟩
      rw [if_neg hversion]
      obtain ⟨result, hscan, hfrom⟩ := @ih
        (if fallback.isNone && version.isNone then some own else fallback) hrest
      refine ⟨result, hscan, fun symbol hsymbol => ?_⟩
      rcases hfrom symbol hsymbol with hfallback | ⟨i, hi, hm⟩
      · split at hfallback
        · cases hfallback
          exact .inr ⟨index, List.mem_cons_self, hmatch⟩
        · exact .inl hfallback
      · exact .inr ⟨i, List.mem_cons_of_mem _ hi, hm⟩

theorem lookupVersioned_eq_scan (object : SymbolObject Path) (name : String) :
    ∃ indices ended, ∀ version,
      object.lookupVersioned name version = object.scan name version ended indices none := by
  unfold SymbolObject.lookupVersioned
  by_cases hsymbols : object.hasSymbols = true
  · simp only [hsymbols, Bool.not_true, Bool.false_eq_true, if_false]
    cases object.gnuHash with
    | some table =>
      by_cases hbloom : table.mayContain name = true
      · exact ⟨(table.candidates name).1, (table.candidates name).2, fun _ => by simp [hbloom]⟩
      · exact ⟨[], none, fun _ => by simp [hbloom, SymbolObject.scan]⟩
    | none =>
      cases object.sysvHash with
      | some table => exact ⟨(table.candidates name).1, (table.candidates name).2, fun _ => rfl⟩
      | none => exact ⟨List.range object.symbolCount, none, fun _ => rfl⟩
  · exact ⟨[], none, fun _ => by simp [hsymbols, SymbolObject.scan]⟩

theorem lookup_of_no_match (h : object.lookupVersioned name version = .ok none) :
    ∃ result, object.lookup name = .ok result ∧
      ∀ symbol, result = some symbol → versionMatches object symbol version = false := by
  obtain ⟨indices, ended, hscan⟩ := lookupVersioned_eq_scan object name
  rw [hscan] at h
  obtain ⟨hended, -, hall⟩ := scan_eq_none h
  obtain ⟨result, hresult, hfrom⟩ : ∃ result,
      object.scan name none ended indices none = .ok result ∧
        ∀ symbol, result = some symbol → none = some symbol ∨
          ∃ index ∈ indices, object.matchingDefinition index name = .ok (some symbol) :=
    scan_of_readable hended fun index hindex => (hall index hindex).imp fun _ hfound => hfound.1
  refine ⟨result, by rw [SymbolObject.lookup, hscan, hresult], fun symbol hsymbol => ?_⟩
  rcases hfrom symbol hsymbol with hnone | ⟨index, hindex, hmatch⟩
  · cases hnone
  obtain ⟨found, hfound, hversion⟩ := hall index hindex
  rw [hmatch] at hfound
  cases hfound
  exact hversion symbol rfl

end Objects

namespace SymbolScope

variable (scope : SymbolScope Path) (name : String) (version : Option String)

/-! ## The rules -/

/-- The matching definition of a provider, and whether it is weak; a facade's never is. -/
def definitionIn : Provider → Except (LinkError Path) (Option (Resolution × Bool))
  | .elf id =>
    match scope.objects[id]? with
    | none => .error .invalidHandle
    | some object => do
      match ← object.lookupVersioned name version with
      | none => pure none
      | some symbol => do
        let resolution ← definitionOf id object symbol
        pure (some (resolution, symbol.isWeak))
  | .dll index =>
    match scope.dlls[index]? with
    | none => .ok none
    | some dll => do
      let resolution ← dll.resolve name version
      pure (resolution.map fun resolution => (resolution, false))

/-- A strong definition, or an error, decides a search. -/
def decides (definition : Except (LinkError Path) (Option (Resolution × Bool))) :
    Option (Except (LinkError Path) (Option Resolution)) :=
  match definition with
  | .error e => some (.error e)
  | .ok (some (resolution, false)) => some (.ok (some resolution))
  | .ok _ => none

/-- A weak definition is a placeholder. -/
def placeholder (definition : Except (LinkError Path) (Option (Resolution × Bool))) :
    Option Resolution :=
  match definition with
  | .ok (some (resolution, true)) => some resolution
  | _ => none

/-- The first strong definition along an order, or else the first weak one. -/
def firstDefinition (order : List Provider) : Except (LinkError Path) (Option Resolution) :=
  match order.findSome? fun provider => decides (scope.definitionIn name version provider) with
  | some outcome => outcome
  | none => .ok (order.findSome? fun provider =>
      placeholder (scope.definitionIn name version provider))

/-- The load order restricted to global providers, with their positions. -/
def visible : List (Provider × Nat) :=
  scope.providers.zipIdx.filter fun entry => scope.isGlobal entry.2

/-- Every global provider. -/
def globalOrder : List Provider := scope.visible.map (·.1)

/-- The global providers strictly after an object. -/
def orderAfter (caller : Nat) : List Provider :=
  (scope.visible.filter fun entry => scope.providers.idxOf (.elf caller) < entry.2).map (·.1)

/-- A preferred group, then the other global providers. -/
def preferredOrder (preferred : List Provider) : List Provider :=
  preferred ++ scope.globalOrder.filter (· ∉ preferred)

/-- The owner's own matching definition, else what the preferred search finds. -/
def ownFirst (own : Except (LinkError Path) (Option Resolution)) (preferred : List Provider) :
    Except (LinkError Path) (Option Resolution) :=
  match own with
  | .ok none => scope.resolvePreferred name version preferred
  | outcome => outcome

/-- The first answer along an order. -/
def firstAnswerAlong (order : List Provider) : Except (LinkError Path) (Option Resolution) :=
  let answers := order.findSome? fun provider =>
    match scope.answerOf name version provider with
    | .ok none => none
    | answer => some answer
  answers.getD (.ok none)

/-! ## The loop over providers -/

/-- What is left of an order without one object. -/
def without (skip : Option Nat) (order : List Provider) : List Provider :=
  order.filter fun provider => some provider ≠ skip.map Provider.elf

/-- The rule, for a search that has a weak definition already. -/
def firstDefinitionOr (fallback : Option Resolution) (order : List Provider) :
    Except (LinkError Path) (Option Resolution) :=
  match order.findSome? fun provider => decides (scope.definitionIn name version provider) with
  | some outcome => outcome
  | none => .ok (fallback <|> order.findSome? fun provider =>
      placeholder (scope.definitionIn name version provider))

variable {scope name version} {provider : Provider}

variable {rest : List Provider} {fallback : Option Resolution}

theorem firstDefinitionOr_decided (outcome : Except (LinkError Path) (Option Resolution))
    (h : decides (scope.definitionIn name version provider) = some outcome) :
    scope.firstDefinitionOr name version fallback (provider :: rest) = outcome := by
  rw [firstDefinitionOr, List.findSome?_cons_of_isSome (by simp [h])]
  simp [h]

theorem firstDefinitionOr_undecided (h : decides (scope.definitionIn name version provider) = none)
    :
    scope.firstDefinitionOr name version fallback (provider :: rest) =
      scope.firstDefinitionOr name version
        (fallback <|> placeholder (scope.definitionIn name version provider)) rest := by
  unfold firstDefinitionOr
  rw [List.findSome?_cons_of_isNone (by simp [h])]
  cases rest.findSome? fun provider => decides (scope.definitionIn name version provider) with
  | some outcome => rfl
  | none =>
    simp only [List.findSome?_cons]
    cases placeholder (scope.definitionIn name version provider) <;>
      cases fallback <;> rfl

variable (scope name version)

/-- One step of the loop, at a provider that is not left out. -/
theorem resolveInOrder_cons {skip : Option Nat} (hkept : some provider ≠ skip.map Provider.elf)
    (rest : List Provider) (fallback : Option Resolution) :
    scope.resolveInOrder name version skip (provider :: rest) fallback =
      match scope.definitionIn name version provider with
      | .error e => .error e
      | .ok none => scope.resolveInOrder name version skip rest fallback
      | .ok (some (resolution, true)) =>
        scope.resolveInOrder name version skip rest (fallback <|> some resolution)
      | .ok (some (resolution, false)) => .ok (some resolution) := by
  cases provider with
  | dll index =>
    simp only [resolveInOrder, definitionIn]
    cases scope.dlls[index]? with
    | none => rfl
    | some dll =>
      simp only
      cases dll.resolve name version with
      | error e => rfl
      | ok found => cases found <;> rfl
  | elf id =>
    have hskip : some id ≠ skip := by
      rintro rfl
      exact hkept rfl
    simp only [resolveInOrder, definitionIn, if_neg hskip]
    cases scope.objects[id]? with
    | none => rfl
    | some object =>
      simp only
      cases object.lookupVersioned name version with
      | error e => rfl
      | ok found =>
        cases found with
        | none => rfl
        | some symbol =>
          simp only [bind, Except.bind]
          cases definitionOf id object symbol with
          | error e => rfl
          | ok resolution =>
            simp only [pure, Except.pure]
            cases symbol.isWeak <;> rfl

theorem resolveInOrder_eq (skip : Option Nat) (order : List Provider)
    (fallback : Option Resolution) :
    scope.resolveInOrder name version skip order fallback =
      scope.firstDefinitionOr name version fallback (without skip order) := by
  induction order generalizing fallback with
  | nil => cases fallback <;> rfl
  | cons provider rest ih =>
    by_cases hkept : some provider ≠ skip.map Provider.elf
    · have hwithout : without skip (provider :: rest) = provider :: without skip rest :=
        List.filter_cons_of_pos (decide_eq_true hkept)
      rw [hwithout, resolveInOrder_cons scope name version hkept]
      cases hdefinition : scope.definitionIn name version provider with
      | error e => rw [firstDefinitionOr_decided (.error e) (by rw [hdefinition]; rfl)]
      | ok found =>
        cases found with
        | none =>
          rw [firstDefinitionOr_undecided (by rw [hdefinition]; rfl), hdefinition]
          simpa [placeholder] using ih fallback
        | some entry =>
          obtain ⟨resolution, isWeak⟩ := entry
          cases isWeak with
          | true =>
            rw [firstDefinitionOr_undecided (by rw [hdefinition]; rfl), hdefinition]
            exact ih _
          | false =>
            rw [firstDefinitionOr_decided (.ok (some resolution)) (by rw [hdefinition]; rfl)]
    · cases skip with
      | none => simp at hkept
      | some id =>
        obtain rfl : provider = .elf id := by simpa using hkept
        have hwithout : without (some id) (.elf id :: rest) = without (some id) rest := by
          simp [without]
        rw [hwithout, resolveInOrder, if_pos rfl]
        exact ih fallback

theorem resolveInOrder_eq_firstDefinition (skip : Option Nat) (order : List Provider) :
    scope.resolveInOrder name version skip order none =
      scope.firstDefinition name version (without skip order) := by
  rw [resolveInOrder_eq, firstDefinitionOr, firstDefinition]
  rfl

/-! ## The orders -/

theorem without_none (order : List Provider) : without none order = order := by
  simp [without]

theorem resolve_eq : scope.resolve name version =
    scope.firstDefinition name version scope.globalOrder := by
  rw [resolve, resolveFiltered, resolveInOrder_eq_firstDefinition, without_none, List.drop_zero]
  rfl

theorem resolveExcluding_eq (skip : Option Nat) : scope.resolveExcluding name version skip =
    scope.firstDefinition name version (without skip scope.globalOrder) := by
  rw [resolveExcluding, resolveFiltered, resolveInOrder_eq_firstDefinition, List.drop_zero]
  rfl

theorem zipIdx_drop_eq_filter {α : Type} (l : List α) (start : Nat) :
    l.zipIdx.drop start = l.zipIdx.filter fun entry => start ≤ entry.2 := by
  have hsplit := List.take_append_drop start l.zipIdx
  have hfront : (l.zipIdx.take start).filter (fun entry => decide (start ≤ entry.2)) = [] := by
    rw [List.filter_eq_nil_iff]
    intro entry hentry
    obtain ⟨i, hi, rfl⟩ := List.mem_take_iff_getElem.mp hentry
    simp only [List.getElem_zipIdx]
    have hlt : i < start := by omega
    simp [hlt]
  have hback : (l.zipIdx.drop start).filter (fun entry => decide (start ≤ entry.2)) =
      l.zipIdx.drop start := by
    rw [List.filter_eq_self]
    intro entry hentry
    obtain ⟨i, hi, rfl⟩ := List.mem_drop_iff_getElem.mp hentry
    simp
  conv_rhs => rw [← hsplit, List.filter_append, hfront, hback, List.nil_append]

theorem resolveAfter_eq (caller : Fin scope.objects.length) :
    scope.resolveAfter caller name version =
      scope.firstDefinition name version (scope.orderAfter caller) := by
  have hmem : Provider.elf caller ∈ scope.providers := scope.listed caller caller.2
  have hfind : scope.providers.findIdx? (· = .elf caller) =
      some (scope.providers.idxOf (.elf caller)) := by
    rw [List.findIdx?_eq_some_of_exists ⟨_, hmem, by simp⟩, List.idxOf]
    congr 2
  rw [resolveAfter, hfind]
  simp only [Option.map_some, Option.getD_some]
  rw [resolveFiltered, resolveInOrder_eq_firstDefinition, without_none, zipIdx_drop_eq_filter,
    orderAfter, visible, List.filter_filter, List.filter_filter]
  congr 2
  refine List.filter_congr fun entry _ => ?_
  rw [Bool.and_comm]
  rfl

theorem resolvePreferred_eq (preferred : List Provider) :
    scope.resolvePreferred name version preferred =
      scope.firstDefinition name version (scope.preferredOrder preferred) := by
  unfold resolvePreferred
  by_cases hempty : preferred = []
  · subst hempty
    rw [if_pos List.isEmpty_nil, resolve_eq]
    simp [preferredOrder]
  have hnot : ¬preferred.isEmpty = true := by simpa using hempty
  rw [if_neg hnot, resolveInOrder_eq_firstDefinition, without_none, preferredOrder, globalOrder,
    visible, List.filter_map, List.filter_filter]
  congr 3
  refine List.filter_congr fun entry _ => ?_
  simp [Bool.and_comm]

theorem preferredOrder_nodup {preferred : List Provider} (h : preferred.Nodup) :
    (scope.preferredOrder preferred).Nodup := by
  have hglobal : scope.globalOrder.Nodup := by
    have hsub : scope.globalOrder.Sublist scope.providers := by
      have hmap := (List.filter_sublist (p := fun entry : Provider × Nat => scope.isGlobal entry.2)
        (l := scope.providers.zipIdx)).map Prod.fst
      rwa [List.zipIdx_map_fst] at hmap
    exact hsub.nodup scope.once
  refine List.nodup_append.mpr ⟨h, hglobal.filter _, fun a ha b hb hab => ?_⟩
  have := List.of_mem_filter hb
  simp only [decide_eq_true_eq] at this
  exact this (hab ▸ ha)

/-! ## The owner's own definitions -/

/-- What an unversioned lookup in the owner finds, if it matches the version asked for. -/
def defaultAnswer (owner : Fin scope.objects.length) :
    Except (LinkError Path) (Option Resolution) := do
  match ← (scope.objectAt owner).lookup name with
  | some symbol =>
    if versionMatches (scope.objectAt owner) symbol version then
      let resolution ← definitionOf owner (scope.objectAt owner) symbol
      pure (some resolution)
    else pure none
  | none => pure none

theorem resolveSymbolic_eq (owner : Fin scope.objects.length) (preferred : List Provider) :
    scope.resolveSymbolic owner name version preferred =
      scope.ownFirst name version (scope.defaultAnswer name version owner) preferred := by
  unfold resolveSymbolic defaultAnswer
  cases (scope.objectAt owner).lookup name with
  | error e => rfl
  | ok found =>
    cases found with
    | none => rfl
    | some symbol =>
      simp only [bind, Except.bind]
      by_cases hversion : versionMatches (scope.objectAt owner) symbol version = true
      · simp only [hversion, if_true]
        cases definitionOf owner (scope.objectAt owner) symbol <;> rfl
      · simp only [hversion]
        rfl

theorem answerOf_elf (owner : Fin scope.objects.length) :
    scope.answerOf name version (.elf owner) = (do
        match ← (scope.objectAt owner).lookupVersioned name version with
        | none => pure none
        | some symbol => do
          let resolution ← definitionOf owner (scope.objectAt owner) symbol
          pure (some resolution)) := by
  simp only [answerOf, getElem?_objectAt] <;> rfl

theorem defaultAnswer_of_none (owner : Fin scope.objects.length)
    (h : scope.answerOf name version (.elf owner) = .ok none) :
    scope.defaultAnswer name version owner = .ok none := by
  rw [answerOf_elf] at h
  have hlookup : (scope.objectAt owner).lookupVersioned name version = .ok none := by
    cases hfound : (scope.objectAt owner).lookupVersioned name version with
    | error e => simp [hfound, bind, Except.bind] at h
    | ok found =>
      cases found with
      | none => rfl
      | some symbol =>
        rw [hfound] at h
        cases hdefinition : definitionOf owner (scope.objectAt owner) symbol <;>
          simp [hdefinition, bind, Except.bind, pure, Except.pure] at h
  obtain ⟨result, hresult, hversion⟩ := lookup_of_no_match hlookup
  rw [defaultAnswer, hresult]
  cases result with
  | none => rfl
  | some symbol => simp [bind, Except.bind, hversion symbol rfl, pure, Except.pure]

/-- The owner's default definition is the matching one, or there is no default one and the
preferred search arrives at the matching one. -/
def DefaultIsOwn (owner : Fin scope.objects.length) (preferred : List Provider) : Prop :=
  scope.defaultAnswer name version owner = scope.answerOf name version (.elf owner) ∨
    scope.defaultAnswer name version owner = .ok none ∧
      scope.firstDefinition name version (scope.preferredOrder preferred) =
        scope.answerOf name version (.elf owner)

theorem resolveSymbolic_iff (owner : Fin scope.objects.length) (preferred : List Provider) :
    scope.resolveSymbolic owner name version preferred =
        scope.ownFirst name version (scope.answerOf name version (.elf owner)) preferred ↔
      scope.DefaultIsOwn name version owner preferred := by
  rw [resolveSymbolic_eq, DefaultIsOwn, ← resolvePreferred_eq]
  have hnone := defaultAnswer_of_none scope name version owner
  generalize scope.defaultAnswer name version owner = default at *
  generalize scope.answerOf name version (.elf owner) = own at *
  rcases own with e | _ | resolution
  · rcases default with e' | _ | resolution' <;> simp [ownFirst]
  · rw [hnone rfl]
    simp
  · rcases default with e' | _ | resolution' <;> simp [ownFirst]

/-! ## Below a handle -/

/-- Every provider there is. -/
def everyProvider : List Provider :=
  (List.range scope.objects.length).map .elf ++ (List.range scope.dlls.length).map .dll

theorem everyProvider_closed : ClosedUnder scope.dependenciesOf scope.everyProvider := by
  intro provider _ dependency hdependency
  cases provider with
  | dll index => cases hdependency
  | elf id =>
    have hrecorded : ∃ dependencies ∈ scope.providerDependencies, dependency ∈ dependencies := by
      simp only [dependenciesOf, List.getD_eq_getElem?_getD] at hdependency
      cases hget : scope.providerDependencies[id]? with
      | none => simp [hget] at hdependency
      | some dependencies =>
        rw [hget] at hdependency
        exact ⟨dependencies, List.mem_of_getElem? hget, hdependency⟩
    cases dependency with
    | elf other =>
      exact List.mem_append_left _ (List.mem_map_of_mem
        (List.mem_range.mpr (scope.objectsInRange other (.inr hrecorded))))
    | dll index =>
      exact List.mem_append_right _ (List.mem_map_of_mem
        (List.mem_range.mpr (scope.dllsInRange index (.inr hrecorded))))

theorem elf_mem_everyProvider (id : Fin scope.objects.length) :
    Provider.elf id ∈ scope.everyProvider :=
  List.mem_append_left _ (List.mem_map_of_mem (List.mem_range.mpr id.2))

/-- The providers below an object, breadth first. -/
def breadthFirst (id : Nat) : List Provider :=
  scope.runtimeProviderClosure (workLeft scope.dependenciesOf scope.everyProvider [] [.elf id]) id

/-- The providers below an object, depth first. -/
def depthFirst (id : Nat) : List Provider :=
  visit scope.dependenciesOf (scope.everyProvider.length + 1) [] (.elf id)

variable {scope name version}

theorem firstAnswerAlong_nil : scope.firstAnswerAlong name version [] = .ok none := rfl

theorem firstAnswerAlong_append (front back : List Provider) :
    scope.firstAnswerAlong name version (front ++ back) =
      match scope.firstAnswerAlong name version front with
      | .ok none => scope.firstAnswerAlong name version back
      | answer => answer := by
  induction front with
  | nil => simp [firstAnswerAlong_nil]
  | cons provider front ih =>
    simp only [firstAnswerAlong, List.cons_append, List.findSome?_cons] at ih ⊢
    rcases scope.answerOf name version provider with e | _ | resolution
    · rfl
    · exact ih
    · rfl

theorem firstAnswerAlong_singleton (provider : Provider) :
    scope.firstAnswerAlong name version [provider] = scope.answerOf name version provider := by
  simp only [firstAnswerAlong, List.findSome?_cons, List.findSome?_nil]
  rcases scope.answerOf name version provider with e | _ | resolution <;> rfl

/-- A search answers as the nodes that a visit adds, and visits them while none answers. -/
def Answers (scope : SymbolScope Path) (name : String) (version : Option String)
    (visited visited' : List Provider)
    (found : Except (LinkError Path) (Option Resolution) × List Provider) : Prop :=
  found.1 = scope.firstAnswerAlong name version (visited'.drop visited.length) ∧
    (found.1 = .ok none → found.2 = visited')

theorem Answers.refl (visited : List Provider) :
    Answers scope name version visited visited (.ok none, visited) :=
  ⟨by simp [firstAnswerAlong_nil], fun _ => rfl⟩

/-- A search that goes on where another one found nothing. -/
theorem Answers.trans {visited visited₁ visited₂ : List Provider}
    {found found' : Except (LinkError Path) (Option Resolution) × List Provider}
    (h : Answers scope name version visited visited₁ found) (hinit : visited <+: visited₁)
    (hinit' : visited₁ <+: visited₂)
    (h' : found.1 = .ok none → Answers scope name version visited₁ visited₂ found')
    (hfound : found.1 ≠ .ok none → found' = found) :
    Answers scope name version visited visited₂ found' := by
  obtain ⟨front, rfl⟩ := hinit
  obtain ⟨back, rfl⟩ := hinit'
  have hfirst := h.1
  rw [List.drop_left] at hfirst
  rw [Answers, List.append_assoc, List.drop_left, firstAnswerAlong_append, ← hfirst]
  by_cases hnone : found.1 = .ok none
  · obtain ⟨hanswer, hvisited⟩ := h' hnone
    rw [List.drop_left] at hanswer
    rw [hnone]
    exact ⟨hanswer, fun hend => by rw [hvisited hend, List.append_assoc]⟩
  rw [hfound hnone]
  refine ⟨?_, fun hend => absurd hend hnone⟩
  rcases hanswer : found.1 with e | _ | resolution
  · rfl
  · exact absurd hanswer hnone
  · rfl

theorem firstAnswer_answers {fuel : Nat} {search : Provider → List Provider →
      Except (LinkError Path) (Option Resolution) × List Provider} {nodes : List Provider}
    (hsearch : ∀ visited provider, provider ∈ nodes → (unlisted nodes visited).length < fuel →
      Answers scope name version visited (visit scope.dependenciesOf fuel visited provider)
        (search provider visited)) (rest visited : List Provider) (hrest : rest ⊆ nodes)
    (hfuel : (unlisted nodes visited).length < fuel) :
    Answers scope name version visited (rest.foldl (visit scope.dependenciesOf fuel) visited)
      (firstAnswer search rest visited) := by
  induction rest generalizing visited with
  | nil => exact Answers.refl visited
  | cons provider rest ih =>
    have hfirst := hsearch visited provider (hrest List.mem_cons_self) hfuel
    have hfuel' : (unlisted nodes (visit scope.dependenciesOf fuel visited provider)).length <
        fuel := Nat.lt_of_le_of_lt (unlisted_length_le (subset_visit ..)) hfuel
    have hnext := ih (visit scope.dependenciesOf fuel visited provider)
      (fun other hother => hrest (List.mem_cons_of_mem provider hother)) hfuel'
    rw [List.foldl_cons]
    refine hfirst.trans (prefix_visit ..) (prefix_foldl (prefix_visit fuel) ..) ?_ ?_
    · intro hnone
      have hfound : search provider visited =
          (.ok none, visit scope.dependenciesOf fuel visited provider) :=
        Prod.ext hnone (hfirst.2 hnone)
      rw [firstAnswer, hfound]
      exact hnext
    · intro hsome
      rw [firstAnswer]
      split
      · rename_i heq
        rw [heq] at hsome
        exact absurd rfl hsome
      · rfl

variable (scope name version) in
theorem lookupInProvider_answers (fuel : Nat) (visited : List Provider) (provider : Provider)
    (hmem : provider ∈ scope.everyProvider)
    (hfuel : (unlisted scope.everyProvider visited).length < fuel) :
    Answers scope name version visited (visit scope.dependenciesOf fuel visited provider)
      (scope.lookupInProvider name version fuel provider visited) := by
  induction fuel generalizing visited provider with
  | zero => exact absurd hfuel (Nat.not_lt_zero _)
  | succ fuel ih =>
    unfold lookupInProvider
    by_cases hvisited : provider ∈ visited
    · rw [if_pos hvisited, visit_listed hvisited]
      exact Answers.refl visited
    rw [if_neg hvisited, visit, if_neg hvisited]
    have hless := unlisted_length_lt hmem hvisited
    -- The provider itself, and then its dependencies.
    have hown : Answers scope name version visited (visited ++ [provider])
        (scope.answerOf name version provider, visited ++ [provider]) := by
      refine ⟨?_, fun _ => rfl⟩
      rw [List.drop_left, firstAnswerAlong_singleton]
    refine hown.trans (List.prefix_append ..) (prefix_foldl (prefix_visit fuel) ..) ?_ ?_
    · intro hnone
      simp only at hnone
      rw [hnone]
      exact firstAnswer_answers ih _ _ (everyProvider_closed scope provider hmem) (by omega)
    intro hsome
    simp only at hsome
    split
    · rename_i hnone
      exact absurd hnone hsome
    · rfl

variable (scope name version)

theorem lookupInVersion_eq (id : Fin scope.objects.length) {fuel : Nat}
    (hfuel : scope.everyProvider.length < fuel) :
    scope.lookupInVersion fuel id name version =
      scope.firstAnswerAlong name version (scope.depthFirst id) := by
  have hmem := elf_mem_everyProvider scope id
  have hanswers := lookupInProvider_answers scope name version fuel [] (.elf id) hmem
    (by simpa [unlisted] using hfuel)
  have hdepth := visit_follows (everyProvider_closed scope) hmem hfuel.le
  have hdepth' := visit_follows (everyProvider_closed scope) hmem
    (Nat.le_succ scope.everyProvider.length)
  rw [lookupInVersion, hanswers.1, hdepth.unique hdepth']
  rfl

theorem breadthFirst_follows (id : Fin scope.objects.length) :
    Follows (breadthNext scope.dependenciesOf) (.elf id) (scope.breadthFirst id) :=
  closure_follows (everyProvider_closed scope) (elf_mem_everyProvider scope id) le_rfl

/-! ## All entry points -/

/-- Every entry point follows its rule. -/
structure FollowsScopeRules (skip : Option Nat) (caller owner handle : Fin scope.objects.length)
    (preferred : List Provider) (fuel : Nat) : Prop where
  resolve : scope.resolve name version = scope.firstDefinition name version scope.globalOrder
  excluding : scope.resolveExcluding name version skip =
    scope.firstDefinition name version (without skip scope.globalOrder)
  after : scope.resolveAfter caller name version =
    scope.firstDefinition name version (scope.orderAfter caller)
  preferredFirst : scope.resolvePreferred name version preferred =
    scope.firstDefinition name version (scope.preferredOrder preferred)
  once : preferred.Nodup → (scope.preferredOrder preferred).Nodup
  symbolic : scope.resolveSymbolic owner name version preferred =
    scope.ownFirst name version (scope.answerOf name version (.elf owner)) preferred
  belowHandle : scope.lookupInVersion fuel handle name version =
    scope.firstAnswerAlong name version (scope.breadthFirst handle)

/-- All entry points follow the rules exactly when the owner's default definition is the one
asked for, and the provider met first below the handle is the same depth first and breadth
first. -/
theorem follows_scope_rules_iff (skip : Option Nat)
    (caller owner handle : Fin scope.objects.length) (preferred : List Provider) {fuel : Nat}
    (hfuel : scope.everyProvider.length < fuel) :
    scope.FollowsScopeRules name version skip caller owner handle preferred fuel ↔
      scope.DefaultIsOwn name version owner preferred ∧
        scope.firstAnswerAlong name version (scope.depthFirst handle) =
          scope.firstAnswerAlong name version (scope.breadthFirst handle) := by
  have hhandle := lookupInVersion_eq scope name version handle hfuel
  have hsymbolic := resolveSymbolic_iff scope name version owner preferred
  constructor
  · intro h
    exact ⟨hsymbolic.mp h.symbolic, hhandle ▸ h.belowHandle⟩
  · rintro ⟨hdefault, hfirst⟩
    exact
      { resolve := resolve_eq scope name version
        excluding := resolveExcluding_eq scope name version skip
        after := resolveAfter_eq scope name version caller
        preferredFirst := resolvePreferred_eq scope name version preferred
        once := preferredOrder_nodup scope
        symbolic := hsymbolic.mpr hdefault
        belowHandle := hhandle.trans hfirst }

/-! ### Two branches and two versions -/

/-- An object with these definitions: the name, the version, and whether it is hidden. -/
def definesAll (entries : List (String × String × Bool)) : SymbolObject Unit where
  hasSymbols := true
  symbolCount := entries.length
  symbol index := .ok (entries[index]?.map fun entry =>
    { index, name := entry.1, info := 0x12, other := 0, sectionIndex := 1, value := index, size := 8 })
  gnuHash := none
  sysvHash := none
  definitionVersion index := entries[index]?.map (·.2.1)
  definitionIsHidden index := (entries[index]?.map (·.2.2)).getD false
  loadBias := 0x1000
  tlsModule := none

/-- Object 0 needs 1 and 2, and 1 needs 3.  Objects 2 and 3 define `f`; object 1 has `g` in two
versions, of which object 0 has the older one. -/
def twoBranches : SymbolScope Unit where
  objects := [definesAll [("g", "V1", false)], definesAll [("g", "V2", false), ("g", "V1", true)],
    definesAll [("f", "V1", false)], definesAll [("f", "V1", false)]]
  dlls := []
  providers := [.elf 0, .elf 1, .elf 3, .elf 2]
  globals := [true, true, true, true]
  providerDependencies := [[.elf 1, .elf 2], [.elf 3], [], []]
  aligned := rfl
  once := by decide
  listed := by decide
  objectsInRange := by
    intro id hid
    simp at hid ⊢
    omega
  dllsInRange := by simp

theorem follows_scope_rules_iff_twoBranches :
    twoBranches.FollowsScopeRules "f" none none ⟨0, by decide⟩ ⟨0, by decide⟩ ⟨1, by decide⟩ [] 5 ↔
      twoBranches.DefaultIsOwn "f" none ⟨0, by decide⟩ [] ∧
        twoBranches.firstAnswerAlong "f" none (twoBranches.depthFirst 1) =
          twoBranches.firstAnswerAlong "f" none (twoBranches.breadthFirst 1) :=
  follows_scope_rules_iff twoBranches "f" none none _ _ ⟨1, by decide⟩ [] (by decide)

/-- Below object 0 the `f` of object 3 is found before that of object 2, and object 1 bound
symbolically to the older `g` gets the one of object 0. -/
theorem twoBranches_break_the_rules :
    ¬twoBranches.FollowsScopeRules "f" none none ⟨0, by decide⟩ ⟨0, by decide⟩ ⟨0, by decide⟩ [] 5 ∧
      ¬twoBranches.FollowsScopeRules "g" (some "V1") none ⟨0, by decide⟩ ⟨1, by decide⟩
        ⟨0, by decide⟩ [] 5 := by
  constructor
  · intro h
    exact absurd h.belowHandle (by decide)
  · intro h
    exact absurd h.symbolic (by decide)

end SymbolScope

end Kinakaze.Linker
