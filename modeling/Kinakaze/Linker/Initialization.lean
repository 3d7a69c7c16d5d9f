import Kinakaze.Library.Run
import Kinakaze.Linker.LoadOrder
import Kinakaze.Linker.Open

/-!
# The order of constructors

The objects that are linked run their constructors once, each after those of its dependencies,
and over all that `dlopen` adds later.
-/

namespace Kinakaze.Linker

open Library Relation

variable {Path : Type} {linker linker' : Linker Path}

/-! ## Post-order -/

def Linker.requires (linker : Linker Path) (id : Nat) : List Nat :=
  (linker.objects[id]?.map (·.dependencies)).getD []

/-- An object depends on another, itself included. -/
def Linker.DependsOn (linker : Linker Path) : Nat → Nat → Prop :=
  ReflTransGen fun a b => b ∈ linker.requires a

/-- What an object has before it in a list of objects: its dependencies, but for those that
reach it. -/
def Linker.Ordered (linker : Linker Path) (order : List Nat) : Prop :=
  ∀ before a after, order = before ++ a :: after →
    ∀ b ∈ linker.requires a, ¬ linker.DependsOn b a → b ∈ before

theorem Linker.Ordered.snoc {order : List Nat} {a : Nat} (h : linker.Ordered order)
    (ha : ∀ b ∈ linker.requires a, ¬ linker.DependsOn b a → b ∈ order) :
    linker.Ordered (order ++ [a]) := by
  intro before c after heq
  rcases List.eq_nil_or_concat after with rfl | ⟨after, z, rfl⟩
  · obtain ⟨rfl, hc⟩ := List.append_inj' heq rfl
    obtain rfl := List.singleton_inj.mp hc
    exact ha
  · have hsplit : order ++ [a] = (before ++ c :: after) ++ [z] := by simpa using heq
    exact h before c after (List.append_inj' hsplit rfl).1

/-- The objects visited and the objects listed. -/
structure Walk (linker : Linker Path) (s : List Nat × List Nat) : Prop where
  inside : ∀ a ∈ s.1, a < linker.objects.length
  listed : s.2 ⊆ s.1
  nodup : s.2.Nodup
  ordered : linker.Ordered s.2

/-- A visit leaves open what was open before it. -/
structure Visited (linker : Linker Path) (s s' : List Nat × List Nat) : Prop where
  walk : Walk linker s'
  grows : s.1 ⊆ s'.1
  opened : ∀ a, (a ∈ s'.1 ∧ a ∉ s'.2) ↔ (a ∈ s.1 ∧ a ∉ s.2)

theorem Visited.trans {s s' s'' : List Nat × List Nat} (h : Visited linker s s')
    (h' : Visited linker s' s'') : Visited linker s s'' :=
  ⟨h'.walk, fun _ ha => h'.grows (h.grows ha), fun a => (h'.opened a).trans (h.opened a)⟩

variable {fuel id : Nat} {s : List Nat × List Nat}

/-- What a visit does where all that is open reaches the object. -/
def VisitSpec (linker : Linker Path) (fuel : Nat) : Prop :=
  ∀ s id, Walk linker s → id < linker.objects.length →
    (unlisted (List.range linker.objects.length) s.1).length < fuel →
      (∀ a ∈ s.1, a ∉ s.2 → linker.DependsOn a id) →
        Visited linker s (visitForInitialization linker fuel s id) ∧
          id ∈ (visitForInitialization linker fuel s id).1

theorem foldl_spec (hvisit : VisitSpec linker fuel) {ids : List Nat} (hwalk : Walk linker s)
    (hids : ∀ id ∈ ids, id < linker.objects.length)
    (hfuel : (unlisted (List.range linker.objects.length) s.1).length < fuel)
    (hopen : ∀ id ∈ ids, ∀ a ∈ s.1, a ∉ s.2 → linker.DependsOn a id) :
    Visited linker s (ids.foldl (visitForInitialization linker fuel) s) ∧
      ids ⊆ (ids.foldl (visitForInitialization linker fuel) s).1 := by
  induction ids generalizing s with
  | nil => exact ⟨⟨hwalk, List.Subset.refl _, fun _ => .rfl⟩, List.nil_subset _⟩
  | cons id ids ih =>
    obtain ⟨hhead, hmem⟩ := hvisit s id hwalk (hids id List.mem_cons_self) hfuel
      (hopen id List.mem_cons_self)
    obtain ⟨htail, hsub⟩ := ih hhead.walk (fun b hb => hids b (List.mem_cons_of_mem id hb))
      (Nat.lt_of_le_of_lt (unlisted_length_le hhead.grows) hfuel) fun b hb a ha hnew =>
        have hold := (hhead.opened a).mp ⟨ha, hnew⟩
        hopen b (List.mem_cons_of_mem id hb) a hold.1 hold.2
    exact ⟨hhead.trans htail, List.cons_subset.mpr ⟨htail.grows hmem, hsub⟩⟩

/-- The dependencies of the objects are objects, and the scope has every object. -/
structure Linker.Placed (linker : Linker Path) : Prop where
  requires : ∀ id, ∀ b ∈ linker.requires id, b < linker.objects.length
  scope : ∀ id, id ∈ linker.scope.order ↔ id < linker.objects.length

theorem visit_spec (hplaced : linker.Placed) (fuel : Nat) : VisitSpec linker fuel := by
  induction fuel with
  | zero => exact fun s id _ _ hfuel => absurd hfuel (Nat.not_lt_zero _)
  | succ fuel ih =>
    rintro ⟨visited, order⟩ id hwalk hid hfuel hopen
    dsimp only at hfuel hopen
    unfold visitForInitialization
    by_cases hmem : id ∈ visited
    · rw [if_pos hmem]
      exact ⟨⟨hwalk, List.Subset.refl _, fun _ => .rfl⟩, hmem⟩
    rw [if_neg hmem]
    have hnew : id ∉ order := fun h => hmem (hwalk.listed h)
    have hstart : Walk linker (id :: visited, order) :=
      ⟨List.forall_mem_cons.mpr ⟨hid, hwalk.inside⟩, fun a ha =>
        List.mem_cons_of_mem id (hwalk.listed ha), hwalk.nodup, hwalk.ordered⟩
    have hless : (unlisted (List.range linker.objects.length) (id :: visited)).length < fuel := by
      have hlt := unlisted_length_lt (List.mem_range.mpr hid) hmem
      have hle : (unlisted (List.range linker.objects.length) (id :: visited)).length ≤
          (unlisted (List.range linker.objects.length) (visited ++ [id])).length :=
        unlisted_length_le (by simp)
      omega
    obtain ⟨hvisited, hsub⟩ := foldl_spec ih hstart (hplaced.requires id) hless
      fun b hb a ha hopened => by
        have hedge : linker.DependsOn id b := .single hb
        rcases List.mem_cons.mp ha with rfl | ha
        · exact hedge
        · exact (hopen a ha hopened).trans hedge
    rw [show ((linker.objects[id]?.map (·.dependencies)).getD []) = linker.requires id from rfl]
    dsimp only
    generalize (linker.requires id).foldl (visitForInitialization linker fuel)
      (id :: visited, order) = s at hvisited hsub ⊢
    change Visited linker (visited, order) (s.1, s.2 ++ [id]) ∧ id ∈ s.1
    obtain ⟨hin, hunlisted⟩ := (hvisited.opened id).mpr ⟨List.mem_cons_self, hnew⟩
    -- a dependency that is still open reaches the object
    have hbefore : ∀ b ∈ linker.requires id, ¬ linker.DependsOn b id → b ∈ s.2 := by
      intro b hb hreach
      by_contra hb'
      obtain ⟨hmem', hopened⟩ := (hvisited.opened b).mp ⟨hsub hb, hb'⟩
      rcases List.mem_cons.mp hmem' with rfl | hmem'
      · exact hreach .refl
      · exact hreach (hopen b hmem' hopened)
    refine ⟨⟨⟨hvisited.walk.inside, ?_, ?_, hvisited.walk.ordered.snoc hbefore⟩, ?_, ?_⟩, hin⟩
    · exact List.append_subset.mpr ⟨hvisited.walk.listed, by simpa using hin⟩
    · exact List.nodup_append.mpr ⟨hvisited.walk.nodup, List.pairwise_singleton _ id, by
        rintro a ha b hb rfl
        exact hunlisted (List.mem_singleton.mp hb ▸ ha)⟩
    · exact fun a ha => hvisited.grows (List.mem_cons_of_mem id ha)
    · intro a
      have hopened := hvisited.opened a
      simp only [List.mem_append, List.mem_cons, List.not_mem_nil, or_false, not_or] at hopened ⊢
      constructor
      · rintro ⟨ha, ha', hne⟩
        obtain ⟨hold, hold'⟩ := hopened.mp ⟨ha, ha'⟩
        exact ⟨hold.resolve_left hne, hold'⟩
      · rintro ⟨ha, ha'⟩
        obtain ⟨hold, hold'⟩ := hopened.mpr ⟨.inr ha, ha'⟩
        exact ⟨hold, hold', fun heq => hmem (heq ▸ ha)⟩

theorem computeInitializationOrder_spec (hplaced : linker.Placed) :
    (computeInitializationOrder linker).Nodup ∧
      (∀ id, id ∈ computeInitializationOrder linker ↔ id < linker.objects.length) ∧
        linker.Ordered (computeInitializationOrder linker) := by
  have hempty : Walk linker ([], []) :=
    ⟨by simp, List.Subset.refl _, List.nodup_nil, fun before a after h => by simp at h⟩
  have hfuel : (unlisted (List.range linker.objects.length) ([] : List Nat)).length <
      linker.objects.length + 1 := by simp [unlisted]
  obtain ⟨hvisited, hsub⟩ := foldl_spec (visit_spec hplaced _) hempty
    (fun id hid => (hplaced.scope id).mp hid) hfuel (by simp)
  refine ⟨hvisited.walk.nodup, fun id => ⟨fun hid => ?_, fun hid => ?_⟩, hvisited.walk.ordered⟩
  · exact hvisited.walk.inside id (hvisited.walk.listed hid)
  · by_contra hid'
    have hopened := (hvisited.opened id).mp ⟨hsub ((hplaced.scope id).mpr hid), hid'⟩
    exact absurd hopened.1 List.not_mem_nil

/-! ## The constructors of an object -/

/-- An entry of an array of functions as it is read. -/
inductive ArrayEntry where
  | unreadable
  | padding
  | function

/-- `DT_INIT`, with whether its address resolves, and the array. -/
structure Initializers where
  init : Option Bool
  array : List ArrayEntry

inductive Constructor where
  | init
  | entry (index : Nat)
  deriving DecidableEq

/-- `call_function_array_with`: what is called, and whether it comes to the end. -/
def callFunctionArray : Nat → List ArrayEntry → List Constructor × Bool
  | _, [] => ([], true)
  | _, .unreadable :: _ => ([], false)
  | index, .padding :: rest => callFunctionArray (index + 1) rest
  | index, .function :: rest =>
    let (calls, ok) := callFunctionArray (index + 1) rest
    (.entry index :: calls, ok)

def runObjectInitializers (object : Initializers) : List Constructor × Bool :=
  match object.init with
  | some false => ([], false)
  | some true =>
    let (calls, ok) := callFunctionArray 0 object.array
    (.init :: calls, ok)
  | none => callFunctionArray 0 object.array

/-- `DT_INIT` comes before the array, and that in its order. -/
def Constructor.Before : Constructor → Constructor → Prop
  | _, .init => False
  | .init, .entry _ => True
  | .entry i, .entry j => i < j

theorem callFunctionArray_sorted (index : Nat) (entries : List ArrayEntry) :
    (callFunctionArray index entries).1.Pairwise Constructor.Before ∧
      ∀ c ∈ (callFunctionArray index entries).1, ∃ i, index ≤ i ∧ c = .entry i := by
  induction entries generalizing index with
  | nil => exact ⟨.nil, by simp [callFunctionArray]⟩
  | cons entry rest ih =>
    obtain ⟨hsorted, hlater⟩ := ih (index + 1)
    have hmore : ∀ c ∈ (callFunctionArray (index + 1) rest).1, ∃ i, index ≤ i ∧ c = .entry i := by
      intro c hc
      obtain ⟨i, hi, rfl⟩ := hlater c hc
      exact ⟨i, Nat.le_of_succ_le hi, rfl⟩
    cases entry with
    | unreadable => exact ⟨.nil, by simp [callFunctionArray]⟩
    | padding => exact ⟨hsorted, hmore⟩
    | function =>
      refine ⟨List.pairwise_cons.mpr ⟨fun c hc => ?_, hsorted⟩,
        List.forall_mem_cons.mpr ⟨⟨index, Nat.le_refl _, rfl⟩, hmore⟩⟩
      obtain ⟨i, hi, rfl⟩ := hlater c hc
      exact hi

theorem runObjectInitializers_sorted (object : Initializers) :
    (runObjectInitializers object).1.Pairwise Constructor.Before := by
  obtain ⟨hsorted, hlater⟩ := callFunctionArray_sorted 0 object.array
  unfold runObjectInitializers
  split
  · exact .nil
  · refine List.pairwise_cons.mpr ⟨fun c hc => ?_, hsorted⟩
    obtain ⟨i, -, rfl⟩ := hlater c hc
    exact trivial
  · exact hsorted

/-! ## The calls of the loader -/

def Runtime.executableObject (world : RuntimeWorld Path) (s : Runtime Path) : Option Nat :=
  match (List.range s.linker.objects.length).filter (s.isExecutable world) with
  | [id] => some id
  | _ => none

structure Startup (Path : Type) where
  runtime : Runtime Path
  preinitialized : Bool

/-- The calls that run constructors, and those of `open_runtime` that link a group: with the tables
that has then. -/
inductive StartupCall (Path : Type) where
  | runInitializers
  | openRuntime (linker : Linker Path)
  | preinitializers
  | initializers

namespace Startup

variable (world : RuntimeWorld Path) (objectOf : Nat → Initializers)

def step (s : Startup Path) : StartupCall Path → Startup Path
  | .runInitializers =>
    { s with runtime := (Linker.runInitializers world s.runtime.initializationOrder s.runtime).2 }
  | .openRuntime linker =>
    let order := computeInitializationOrder linker
    let runtime := { s.runtime with linker, initializationOrder := order }
    { s with runtime := (Linker.runInitializers world order runtime).2 }
  | .preinitializers =>
    if (s.runtime.executableObject world).isSome then { s with preinitialized := true } else s
  | .initializers =>
    match s.runtime.executableObject world with
    | none => s
    | some id =>
      if id ∈ s.runtime.initialized ∨ s.preinitialized = false then s
      else { s with runtime := { s.runtime with initialized := id :: s.runtime.initialized } }

/-- Linked, with nothing run. -/
def linked (linker : Linker Path) : Startup Path where
  runtime := ⟨linker, [], [], computeInitializationOrder linker, [], 1⟩
  preinitialized := false

/-- The constructors that were called, in turn. The objects are those that were started, the last
of them first. -/
def log (s : Startup Path) : List (Nat × Constructor) :=
  s.runtime.initialized.reverse.flatMap fun id =>
    (runObjectInitializers (objectOf id)).1.map fun c => (id, c)

/-- A group that was linked is added to what is there. -/
def Grows (s : Startup Path) : StartupCall Path → Prop
  | .openRuntime linker => linker.Placed ∧ Grew s.runtime.linker linker
  | _ => True

end Startup

/-- The dependency `b` of `a` that comes before it. -/
def Linker.Needs (linker : Linker Path) (a b : Nat) : Prop :=
  b ∈ linker.requires a ∧ ¬ linker.DependsOn b a

/-- Objects in the order they were started, the last of them first: each that is no executable after
what it needs. -/
def Followed (executable : Nat → Bool) (linker : Linker Path) : List Nat → Prop
  | [] => True
  | a :: earlier =>
    (executable a = false → ∀ b, linker.Needs a b → executable b = true ∨ b ∈ earlier) ∧
      Followed executable linker earlier

theorem Followed.of_mem {executable : Nat → Bool} {l : List Nat} (h : Followed executable linker l)
    {a b : Nat} (ha : a ∈ l) (hexec : executable a = false) (hneeds : linker.Needs a b) :
    executable b = true ∨ b ∈ l := by
  induction l with
  | nil => exact absurd ha List.not_mem_nil
  | cons c l ih =>
    rcases List.mem_cons.mp ha with rfl | ha
    · exact (h.1 hexec b hneeds).imp_right (List.mem_cons_of_mem a)
    · exact (ih h.2 ha).imp_right (List.mem_cons_of_mem c)

structure Runtime.Inv (world : RuntimeWorld Path) (s : Runtime Path) : Prop where
  placed : s.linker.Placed
  order : s.initializationOrder = computeInitializationOrder s.linker
  nodup : s.initialized.Nodup
  inside : ∀ id ∈ s.initialized, id < s.linker.objects.length
  followed : Followed (s.isExecutable world) s.linker s.initialized

variable {world : RuntimeWorld Path} {s : Runtime Path}

theorem Runtime.Inv.start (h : s.Inv world) (hid : id < s.linker.objects.length)
    (hnew : id ∉ s.initialized) (hneeds : s.isExecutable world id = false → ∀ b,
      s.linker.Needs id b → s.isExecutable world b = true ∨ b ∈ s.initialized) :
    Runtime.Inv world { s with initialized := id :: s.initialized } where
  placed := h.placed
  order := h.order
  nodup := List.nodup_cons.mpr ⟨hnew, h.nodup⟩
  inside := List.forall_mem_cons.mpr ⟨hid, h.inside⟩
  followed := ⟨hneeds, h.followed⟩

theorem runInitializers_inv (done : List Nat) {ids : List Nat} (h : s.Inv world)
    (hsplit : s.initializationOrder = done ++ ids)
    (hdone : ∀ id ∈ done, s.isExecutable world id = true ∨ id ∈ s.initialized) :
    (runInitializers world ids s).2.Inv world := by
  induction ids generalizing s done with
  | nil => exact h
  | cons id rest ih =>
    have hsplit' : s.initializationOrder = (done ++ [id]) ++ rest := by simpa using hsplit
    obtain ⟨-, hmem, hordered⟩ := computeInitializationOrder_spec h.placed
    rw [← h.order] at hmem hordered
    unfold runInitializers
    split
    · next hskip =>
      refine ih _ h hsplit' fun b hb => ?_
      rcases List.mem_append.mp hb with hb | hb
      · exact hdone b hb
      · rwa [List.mem_singleton.mp hb]
    · next hrun =>
      rw [not_or] at hrun
      have hstart := h.start ((hmem id).mp (by rw [hsplit]; simp)) hrun.2 fun _ b hb =>
        hdone b (hordered done id rest hsplit b hb.1 hb.2)
      dsimp only
      split
      · exact hstart
      refine ih _ hstart hsplit' fun b hb => ?_
      rcases List.mem_append.mp hb with hb | hb
      · exact (hdone b hb).imp_right (List.mem_cons_of_mem id)
      · exact .inr (List.mem_singleton.mp hb ▸ List.mem_cons_self)

theorem Grew.requires (h : Grew linker linker') (hid : id < linker.objects.length) :
    linker'.requires id = linker.requires id := by
  obtain ⟨object', hobject', -, hdeps⟩ := h.objects id _ (List.getElem?_eq_getElem hid)
  unfold Linker.requires
  rw [hobject', List.getElem?_eq_getElem hid, Option.map_some, Option.map_some, hdeps]

theorem Linker.lt_of_requires {a b : Nat} (h : b ∈ linker.requires a) :
    a < linker.objects.length := by
  by_contra hle
  unfold Linker.requires at h
  rw [List.getElem?_eq_none (Nat.not_lt.mp hle)] at h
  exact absurd h List.not_mem_nil

theorem Grew.needs (h : Grew linker linker') {a b : Nat} (ha : a < linker.objects.length)
    (hneeds : linker'.Needs a b) : linker.Needs a b := by
  refine ⟨h.requires ha ▸ hneeds.1, fun hreaches => hneeds.2 ?_⟩
  refine ReflTransGen.mono (fun x y hxy => ?_) _ _ hreaches
  rwa [h.requires (Linker.lt_of_requires hxy)]

theorem Followed.grow {executable executable' : Nat → Bool} {l : List Nat}
    (h : Followed executable linker l) (hplaced : linker.Placed) (hgrew : Grew linker linker')
    (hinside : ∀ id ∈ l, id < linker.objects.length)
    (hsame : ∀ id, id < linker.objects.length → executable' id = executable id) :
    Followed executable' linker' l := by
  induction l with
  | nil => exact trivial
  | cons a l ih =>
    obtain ⟨ha, hl⟩ := List.forall_mem_cons.mp hinside
    refine ⟨fun hexec b hb => ?_, ih h.2 hl⟩
    have hneeds := hgrew.needs ha hb
    rw [hsame b (hplaced.requires a b hneeds.1)]
    exact h.1 ((hsame a ha).symm.trans hexec) b hneeds

theorem Runtime.Inv.grow (h : s.Inv world) (hplaced : linker.Placed)
    (hgrew : Grew s.linker linker) : Runtime.Inv world
      { s with linker, initializationOrder := computeInitializationOrder linker } := by
  have hexecutable : ∀ id, id < s.linker.objects.length → Runtime.isExecutable world
      { s with linker, initializationOrder := computeInitializationOrder linker } id =
        s.isExecutable world id := by
    intro id hid
    obtain ⟨object', hobject', hpath, -⟩ := hgrew.objects id _ (List.getElem?_eq_getElem hid)
    unfold Runtime.isExecutable
    rw [hobject', List.getElem?_eq_getElem hid]
    dsimp only
    rw [hpath]
  refine ⟨hplaced, rfl, h.nodup, fun id hid => ?_, ?_⟩
  · obtain ⟨object', hobject', -⟩ :=
      hgrew.objects id _ (List.getElem?_eq_getElem (h.inside id hid))
    exact (List.getElem?_eq_some_iff.mp hobject').1
  · exact h.followed.grow h.placed hgrew h.inside hexecutable

theorem Runtime.Inv.runInitializers (h : s.Inv world) :
    (runInitializers world s.initializationOrder s).2.Inv world :=
  runInitializers_inv [] h rfl (by simp)

theorem executableObject_spec (h : s.executableObject world = some id) :
    id < s.linker.objects.length ∧ s.isExecutable world id = true := by
  unfold Runtime.executableObject at h
  split at h
  · next other heq =>
    obtain rfl := Option.some.inj h
    have hmem : other ∈ (List.range s.linker.objects.length).filter (s.isExecutable world) := by
      rw [heq]
      exact List.mem_cons_self
    rw [List.mem_filter, List.mem_range] at hmem
    exact hmem
  · cases h

namespace Startup

variable {objectOf : Nat → Initializers} {s : Startup Path}

theorem inv_step (h : s.runtime.Inv world) (call : StartupCall Path) (hgrows : s.Grows call) :
    (s.step world call).runtime.Inv world := by
  cases call with
  | runInitializers => exact h.runInitializers
  | openRuntime linker => exact (h.grow hgrows.1 hgrows.2).runInitializers
  | preinitializers =>
    unfold step
    dsimp only
    split <;> exact h
  | initializers =>
    unfold step
    dsimp only
    split
    · exact h
    · next id hid =>
      obtain ⟨hlt, hexec⟩ := executableObject_spec hid
      split
      · exact h
      · next hnew =>
        rw [not_or] at hnew
        exact h.start hlt hnew.1 fun hother => absurd (hexec.symm.trans hother) Bool.noConfusion

/-- Of two constructors the first is no later one of the same object, and does not need the
second. -/
def InTurn (world : RuntimeWorld Path) (s : Startup Path) (x y : Nat × Constructor) : Prop :=
  (x.1 = y.1 → x.2.Before y.2) ∧ (s.runtime.isExecutable world x.1 = false →
    s.runtime.linker.Needs x.1 y.1 → s.runtime.isExecutable world y.1 = true)

theorem log_inTurn (h : s.runtime.Inv world) : (s.log objectOf).Pairwise (s.InTurn world) := by
  have hnodup := h.nodup
  have hfollowed := h.followed
  unfold log
  generalize s.runtime.initialized = l at hnodup hfollowed
  induction l with
  | nil => exact .nil
  | cons a l ih =>
    obtain ⟨hnew, hnodup⟩ := List.nodup_cons.mp hnodup
    rw [List.reverse_cons, List.flatMap_append, List.flatMap_singleton, List.pairwise_append]
    refine ⟨ih hnodup hfollowed.2, ?_, ?_⟩
    · rw [List.pairwise_map]
      exact (runObjectInitializers_sorted (objectOf a)).imp fun hbefore =>
        ⟨fun _ => hbefore, fun _ hneeds => absurd .refl hneeds.2⟩
    · intro x hx y hy
      obtain ⟨b, hb, hx⟩ := List.mem_flatMap.mp hx
      obtain ⟨c, -, rfl⟩ := List.mem_map.mp hx
      obtain ⟨d, -, rfl⟩ := List.mem_map.mp hy
      rw [List.mem_reverse] at hb
      refine ⟨fun (heq : b = a) => absurd (heq ▸ hb) hnew, fun hexec hneeds => ?_⟩
      exact (hfollowed.2.of_mem hb hexec hneeds).resolve_right hnew

theorem log_started (h : s.runtime.Inv world) {x : Nat × Constructor} (hx : x ∈ s.log objectOf)
    (hexec : s.runtime.isExecutable world x.1 = false) {b : Nat}
    (hneeds : s.runtime.linker.Needs x.1 b) :
    s.runtime.isExecutable world b = true ∨ b ∈ s.runtime.initialized := by
  obtain ⟨a, ha, hx⟩ := List.mem_flatMap.mp hx
  obtain ⟨c, -, rfl⟩ := List.mem_map.mp hx
  exact h.followed.of_mem (List.mem_reverse.mp ha) hexec hneeds

theorem log_nodup (h : s.runtime.Inv world) : (s.log objectOf).Nodup := by
  refine (log_inTurn h).imp ?_
  rintro ⟨a, c⟩ y hturn rfl
  have hbefore := hturn.1 rfl
  cases c with
  | init => exact hbefore
  | entry i => exact Nat.lt_irrefl i hbefore

/-- An executable and a library that it needs. -/
def pair : Linker String where
  objects := [⟨"main", "main", [1], 1⟩, ⟨"lib", "lib", [], 1⟩]
  providerDependencies := [[.elf 1], []]
  scope := ⟨[0, 1], [], [.elf 0, .elf 1], [true, true]⟩

def pairWorld : RuntimeWorld String where
  toWorld := branches
  registeredPath _ _ := none
  bare _ := true
  text path := path
  facadePath name := name
  isExecutable path := path == "main"
  relocate _ _ _ := .ok ()
  construct _ := .ok ()

theorem pair_requires {b : Nat} (h : b ∈ pair.requires id) : id = 0 ∧ b = 1 := by
  have hid := Linker.lt_of_requires h
  change id < 2 at hid
  obtain rfl | rfl : id = 0 ∨ id = 1 := by omega
  · exact ⟨rfl, List.mem_singleton.mp h⟩
  · exact absurd h List.not_mem_nil

theorem pair_placed : pair.Placed where
  requires := by
    intro id b hb
    rw [(pair_requires hb).2]
    decide
  scope := by
    intro id
    change id ∈ [0, 1] ↔ id < 2
    simp only [List.mem_cons, List.not_mem_nil, or_false]
    omega

end Startup

end Kinakaze.Linker
