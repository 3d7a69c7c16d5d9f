import Mathlib.Data.List.Chain
import Kinakaze.Library.Cycles
import Kinakaze.Epoll.Set

/-!
# Epoll sets in epoll sets

`epoll_ctl` on the sets of one process. Before the descriptor of a set is registered,
`validate_nesting` walks the registrations as they would be with the new one.
-/

namespace Kinakaze.Epoll.Nesting

open Library Relation

/-- What the preparation of a registration answers: its arguments and the kind of the descriptor are
checked, and then its provider is asked. -/
inductive Refusal where
  | EINVAL
  | EPERM
  | provider (code : Int)
  deriving DecidableEq

inductive Errno where
  | EBADF
  | EINVAL
  | EEXIST
  | ENOENT
  | ELOOP
  | refused (refusal : Refusal)
  deriving DecidableEq

/-- An entry of the descriptor table. `event` is the kind of an epoll set. -/
structure Descriptor where
  descriptionId : Nat
  event : Bool

/-- The keys of the registrations of the sets, by the descriptions of the sets. -/
abbrev Sets := Nat → Option (List Key)

/-! ## `validate_nesting` -/

section

variable (sets : Sets) (parent child : Nat)

/-- Whether `visit` succeeds, with as many calls as `path` leaves room for. Its one error is
`ELOOP`. -/
def visit : Nat → Nat → List Nat → Bool
  | 0, _, _ => false
  | room + 1, id, path =>
    match sets id with
    | none => true
    | some keys =>
      if path.contains id || path.length ≥ 5 then false
      else
        (keys.all fun key => visit room key.descriptionId (path ++ [id])) &&
          (id ≠ parent || visit room child (path ++ [id]))

/-- The walks start at every set there is, of the descriptions before `next`. -/
def validateNesting (next : Nat) : Except Errno Unit :=
  if ((List.range next).filter fun id => (sets id).isSome).all fun id => visit sets parent child 6 id []
  then .ok () else .error .ELOOP

/-! ## The graph of the registrations -/

/-- A set that has a registration of another. -/
def Edge (a b : Nat) : Prop :=
  (∃ keys, sets a = some keys ∧ ∃ key ∈ keys, key.descriptionId = b) ∧ (sets b).isSome

/-- The edges when the child is registered with the parent as well. -/
def With : Nat → Nat → Prop := Extended (Edge sets) parent fun b => b = child ∧ (sets b).isSome

end

/-- No cycle, and no path of more than five sets. -/
structure Bounded (R : Nat → Nat → Prop) : Prop where
  acyclic : Acyclic R
  short : ∀ l : List Nat, l.IsChain R → l.length ≤ 5

theorem Bounded.mono {R R' : Nat → Nat → Prop} (h : Bounded R) (hsub : ∀ a b, R' a b → R a b) :
    Bounded R' where
  acyclic := h.acyclic.mono hsub
  short := fun l hl => h.short l (hl.imp hsub)

theorem nodup_of_acyclic {R : Nat → Nat → Prop} (h : Acyclic R) {l : List Nat} (hl : l.IsChain R) :
    l.Nodup := by
  have hpairwise : l.Pairwise (TransGen R) := (hl.imp fun _ _ hab => TransGen.single hab).pairwise
  refine hpairwise.imp ?_
  rintro a _ hpath rfl
  exact h a hpath

theorem bounded_iff {R : Nat → Nat → Prop} :
    Bounded R ↔ ∀ l : List Nat, l.IsChain R → l.Nodup ∧ l.length ≤ 5 := by
  constructor
  · exact fun h l hl => ⟨nodup_of_acyclic h.acyclic hl, h.short l hl⟩
  · refine fun h => ⟨?_, fun l hl => (h l hl).2⟩
    intro a hcycle
    obtain ⟨b, hstep, hback⟩ := TransGen.head'_iff.mp hcycle
    obtain ⟨l, hchain, hlast⟩ := List.exists_isChain_cons_of_relationReflTransGen hback
    have hnodup := (h (a :: b :: l) (hchain.cons_cons hstep)).1
    exact (List.nodup_cons.mp hnodup).1 (hlast ▸ List.getLast_mem _)

/-! ## What the walks accept -/

variable {sets : Sets} {parent child : Nat}

theorem with_iff {id b : Nat} {keys : List Key} (hset : sets id = some keys) :
    With sets parent child id b ↔
      ((∃ key ∈ keys, key.descriptionId = b) ∨ (id = parent ∧ b = child)) ∧ (sets b).isSome := by
  unfold With Extended Edge
  rw [hset]
  simp only [Option.some.injEq, exists_eq_left', or_and_right, and_assoc]

theorem visit_ok_iff {room id : Nat} {path : List Nat} (hroom : path.length + room = 6)
    (hpath : path.Nodup) (hlen : path.length ≤ 5) :
    visit sets parent child room id path = true ↔ ((sets id).isSome →
      ∀ l, (id :: l).IsChain (With sets parent child) →
        (path ++ id :: l).Nodup ∧ (path ++ id :: l).length ≤ 5) := by
  induction room generalizing id path with
  | zero => omega
  | succ room ih =>
    unfold visit
    cases hset : sets id with
    | none => simp
    | some keys =>
      dsimp only
      by_cases hguard : path.contains id || path.length ≥ 5
      · rw [if_pos hguard]
        refine iff_of_false Bool.false_ne_true fun h => ?_
        obtain ⟨hnodup, hshort⟩ := h rfl [] (List.isChain_singleton id)
        rw [Bool.or_eq_true, List.contains_iff_mem, decide_eq_true_eq] at hguard
        rcases hguard with hmem | hlong
        · exact (List.nodup_append.mp hnodup).2.2 id hmem id List.mem_cons_self rfl
        · rw [List.length_append] at hshort
          simp at hshort
          omega
      rw [if_neg hguard]
      rw [Bool.or_eq_true, List.contains_iff_mem, decide_eq_true_eq, not_or] at hguard
      have hnext : (path ++ [id]).Nodup := by
        refine List.nodup_append.mpr ⟨hpath, (List.pairwise_singleton _ id), ?_⟩
        rintro a ha b hb rfl
        exact hguard.1 (List.mem_singleton.mp hb ▸ ha)
      have hnextLen : (path ++ [id]).length = path.length + 1 := List.length_append
      have hstep : ∀ b, visit sets parent child room b (path ++ [id]) = true ↔
          ((sets b).isSome → ∀ l, (b :: l).IsChain (With sets parent child) →
            (path ++ id :: b :: l).Nodup ∧ (path ++ id :: b :: l).length ≤ 5) := by
        intro b
        rw [ih (by omega) hnext (by omega)]
        simp only [List.append_assoc, List.singleton_append]
      rw [Bool.and_eq_true, List.all_eq_true, Bool.or_eq_true, decide_eq_true_eq]
      constructor
      · rintro ⟨hkeys, hnew⟩ - l hchain
        cases l with
        | nil => exact ⟨hnext, by omega⟩
        | cons b l =>
          rw [List.isChain_cons_cons, with_iff hset] at hchain
          obtain ⟨⟨hb, hsome⟩, hrest⟩ := hchain
          refine (hstep b).mp ?_ hsome l hrest
          rcases hb with ⟨key, hkey, rfl⟩ | ⟨heq, rfl⟩
          · exact hkeys key hkey
          · exact hnew.resolve_left (not_not.mpr heq)
      · intro h
        have hgo : ∀ b, ((∃ key ∈ keys, key.descriptionId = b) ∨ (id = parent ∧ b = child)) →
            visit sets parent child room b (path ++ [id]) = true := by
          intro b hb
          rw [hstep]
          intro hsome l hchain
          exact h rfl (b :: l)
            (List.isChain_cons_cons.mpr ⟨(with_iff hset).mpr ⟨hb, hsome⟩, hchain⟩)
        refine ⟨fun key hkey => hgo _ (.inl ⟨key, hkey, rfl⟩), ?_⟩
        by_cases heq : id = parent
        · exact .inr (hgo child (.inr ⟨heq, rfl⟩))
        · exact .inl heq

theorem validateNesting_ok_iff {next : Nat} (hnext : ∀ id, (sets id).isSome → id < next)
    (hparent : (sets parent).isSome) :
    validateNesting sets parent child next = .ok () ↔ Bounded (With sets parent child) := by
  have hall : validateNesting sets parent child next = .ok () ↔
      ∀ id, (sets id).isSome → visit sets parent child 6 id [] = true := by
    unfold validateNesting
    rw [ite_eq_left_iff, List.all_eq_true]
    simp only [List.mem_filter, List.mem_range, reduceCtorEq, imp_false, not_not]
    exact ⟨fun h id hid => h id ⟨hnext id hid, hid⟩, fun h id hid => h id hid.2⟩
  rw [hall, bounded_iff]
  constructor
  · intro h l hchain
    cases l with
    | nil => exact ⟨List.nodup_nil, Nat.zero_le 5⟩
    | cons a l =>
      by_cases hset : (sets a).isSome
      · exact (visit_ok_iff rfl List.nodup_nil (Nat.zero_le 5)).mp (h a hset) hset l hchain
      · cases l with
        | nil => exact ⟨List.pairwise_singleton _ a, by simp⟩
        | cons b l =>
          rcases (List.isChain_cons_cons.mp hchain).1 with ⟨⟨keys, hkeys, -⟩, -⟩ | ⟨rfl, -⟩
          · rw [hkeys] at hset
            exact absurd rfl hset
          · exact absurd hparent hset
  · intro h id _
    rw [visit_ok_iff rfl List.nodup_nil (Nat.zero_le 5)]
    exact fun _ l hchain => h (id :: l) hchain

theorem validateNesting_cases (sets : Sets) (parent child next : Nat) :
    validateNesting sets parent child next = .ok () ∨
      validateNesting sets parent child next = .error .ELOOP := by
  unfold validateNesting
  split
  · exact .inl rfl
  · exact .inr rfl

/-! ## The process -/

/-- The sets of a process and its descriptors. -/
structure Process where
  /-- The next description. -/
  next : Nat := 1
  descriptors : List (Int × Descriptor) := []
  sets : Sets := fun _ => none

inductive Op where
  | add
  | modify
  | delete
  deriving DecidableEq

namespace Process

variable (s : Process)

def get (fd : Int) : Option Descriptor := s.descriptors.lookup fd

/-- A new descriptor of a new description. -/
def opened (fd : Int) (event : Bool) : Process :=
  { s with
    next := s.next + 1
    descriptors := (fd, ⟨s.next, event⟩) :: s.descriptors
    sets := if event then Function.update s.sets s.next (some []) else s.sets }

/-- A descriptor of a kind with readiness, that is opened elsewhere, or `epoll_create1`. -/
def create (fd : Int) (event : Bool) : Process :=
  if (s.get fd).isSome then s else s.opened fd event

def dup (fd copy : Int) : Process :=
  match s.get fd with
  | some entry =>
    if (s.get copy).isSome then s else { s with descriptors := (copy, entry) :: s.descriptors }
  | none => s

/-- `control_set`, on the set of a description. `prepared` is what the checks of the descriptor's
kind and the preparation of the registration answer, and `published` the shared state. -/
def controlSet (parent : Nat) (op : Op) (fd : Int) (entry : Descriptor)
    (prepared published : Except Refusal Unit) : Except Errno Unit × Process :=
  let key : Key := ⟨fd, entry.descriptionId⟩
  match prepared with
  | .error e => (.error (.refused e), s)
  | .ok () =>
    match s.sets parent with
    | none => (.error .EBADF, s)
    | some keys =>
      match if op = .add ∧ entry.event then
          validateNesting s.sets parent entry.descriptionId s.next else .ok () with
      | .error e => (.error e, s)
      | .ok () =>
        match op with
        | .add =>
          if key ∈ keys then (.error .EEXIST, s)
          else (published.mapError .refused, { s with sets := Function.update s.sets parent (some (key :: keys)) })
        | .modify => if key ∈ keys then (published.mapError .refused, s) else (.error .ENOENT, s)
        | .delete =>
          if key ∈ keys then
            (published.mapError .refused, { s with sets := Function.update s.sets parent (some (keys.erase key)) })
          else (.error .ENOENT, s)

def epollCtl (epollFd : Int) (op : Op) (fd : Int) (prepared published : Except Refusal Unit) :
    Except Errno Unit × Process :=
  if epollFd < 0 then (.error .EBADF, s)
  else
    match s.get epollFd with
    | none => (.error .EBADF, s)
    | some set =>
      if !set.event then (.error .EINVAL, s)
      else
        match s.get fd with
        | none => (.error .EBADF, s)
        | some entry =>
          if set.descriptionId = entry.descriptionId then (.error .EINVAL, s)
          else s.controlSet set.descriptionId op fd entry prepared published

/-- The registrations of a description go away, but for those that are kept. -/
def forget (id : Nat) (kept : Key → Bool) : Sets := fun set =>
  (s.sets set).map fun keys => keys.filter fun key => key.descriptionId ≠ id || kept key

/-- A close. The set of a description goes with its last descriptor; the registrations of the
description are kept where it lives on elsewhere. -/
def close (fd : Int) (kept : Key → Bool) : Process :=
  match s.get fd with
  | none => s
  | some entry =>
    let descriptors := s.descriptors.filter fun d => d.1 ≠ fd
    if descriptors.any fun d => d.2.descriptionId = entry.descriptionId then { s with descriptors }
    else
      { s with
        descriptors
        sets := Function.update (s.forget entry.descriptionId kept) entry.descriptionId none }

/-- Registrations go whose descriptions nothing names any more. -/
def retire (kept : Nat → Key → Bool) : Process :=
  { s with sets := fun set => (s.sets set).map fun keys => keys.filter (kept set) }

end Process

inductive Call where
  | create (fd : Int) (event : Bool)
  | dup (fd copy : Int)
  | ctl (epollFd : Int) (op : Op) (fd : Int) (prepared published : Except Refusal Unit)
  | close (fd : Int) (kept : Key → Bool)
  | retire (kept : Nat → Key → Bool)

namespace Process

def step (s : Process) : Call → Process
  | .create fd event => s.create fd event
  | .dup fd copy => s.dup fd copy
  | .ctl epollFd op fd prepared published => (s.epollCtl epollFd op fd prepared published).2
  | .close fd kept => s.close fd kept
  | .retire kept => s.retire kept

/-! ## The invariant -/

structure Inv (s : Process) : Prop where
  sets_lt : ∀ id, (s.sets id).isSome → id < s.next
  keys_lt : ∀ id keys, s.sets id = some keys → ∀ key ∈ keys, key.descriptionId < s.next
  named_lt : ∀ d ∈ s.descriptors, d.2.descriptionId < s.next
  events : ∀ d ∈ s.descriptors, (s.sets d.2.descriptionId).isSome → d.2.event = true
  bounded : Bounded (Edge s.sets)

variable {s s' : Process} {fd : Int}

theorem mem_of_get {d : Descriptor} (h : s.get fd = some d) : (fd, d) ∈ s.descriptors := by
  obtain ⟨l, l', heq, -⟩ := List.lookup_eq_some_iff.mp h
  rw [heq]
  exact List.mem_append_right l List.mem_cons_self

theorem edge_mono {sets' : Sets}
    (h : ∀ id keys, sets' id = some keys → ∃ keys', sets id = some keys' ∧ keys ⊆ keys') (a b : Nat)
    (hedge : Edge sets' a b) : Edge sets a b := by
  obtain ⟨⟨keys, hkeys, key, hkey, hid⟩, hsome⟩ := hedge
  obtain ⟨keys', hkeys', hsub⟩ := h a keys hkeys
  obtain ⟨other, hother⟩ := Option.isSome_iff_exists.mp hsome
  obtain ⟨other', hother', -⟩ := h b other hother
  exact ⟨⟨keys', hkeys', key, hsub hkey, hid⟩, by rw [hother']; rfl⟩

theorem Inv.shrink (h : s.Inv) (hnext : s'.next = s.next)
    (hnamed : ∀ d ∈ s'.descriptors, ∃ d' ∈ s.descriptors, d'.2 = d.2)
    (hsets : ∀ id keys, s'.sets id = some keys → ∃ keys', s.sets id = some keys' ∧ keys ⊆ keys') :
    s'.Inv := by
  have hsome : ∀ id, (s'.sets id).isSome → (s.sets id).isSome := by
    intro id hid
    obtain ⟨keys, hkeys⟩ := Option.isSome_iff_exists.mp hid
    obtain ⟨keys', hkeys', -⟩ := hsets id keys hkeys
    rw [hkeys']
    rfl
  constructor
  · intro id hid
    rw [hnext]
    exact h.sets_lt id (hsome id hid)
  · intro id keys hkeys key hkey
    obtain ⟨keys', hkeys', hsub⟩ := hsets id keys hkeys
    rw [hnext]
    exact h.keys_lt id keys' hkeys' key (hsub hkey)
  · intro d hd
    obtain ⟨d', hd', heq⟩ := hnamed d hd
    rw [hnext, ← heq]
    exact h.named_lt d' hd'
  · intro d hd hset
    obtain ⟨d', hd', heq⟩ := hnamed d hd
    rw [← heq] at hset ⊢
    exact h.events d' hd' (hsome _ hset)
  · exact h.bounded.mono (edge_mono hsets)

theorem Inv.opened (h : s.Inv) (fd : Int) (event : Bool) : (s.opened fd event).Inv := by
  have hfresh : s.sets s.next = none := by
    by_contra hset
    exact Nat.lt_irrefl _ (h.sets_lt _ (Option.isSome_iff_ne_none.mpr hset))
  have hsets : ∀ id, id ≠ s.next → (s.opened fd event).sets id = s.sets id := by
    intro id hid
    unfold Process.opened
    cases event with
    | false => rfl
    | true => exact Function.update_of_ne hid _ _
  have hnew : ∀ keys, (s.opened fd event).sets s.next = some keys → keys = [] ∧ event = true := by
    intro keys hkeys
    unfold Process.opened at hkeys
    cases event with
    | false => exact absurd (hfresh.symm.trans hkeys) (by simp)
    | true =>
      dsimp only at hkeys
      rw [if_pos rfl, Function.update_self, Option.some.injEq] at hkeys
      exact ⟨hkeys.symm, rfl⟩
  constructor
  · intro id hid
    by_cases heq : id = s.next
    · exact Nat.lt_succ_of_le (Nat.le_of_eq heq)
    · rw [hsets id heq] at hid
      exact Nat.lt_succ_of_lt (h.sets_lt id hid)
  · intro id keys hkeys key hkey
    by_cases heq : id = s.next
    · rw [(hnew keys (heq ▸ hkeys)).1] at hkey
      exact absurd hkey List.not_mem_nil
    · rw [hsets id heq] at hkeys
      exact Nat.lt_succ_of_lt (h.keys_lt id keys hkeys key hkey)
  · intro d hd
    rcases List.mem_cons.mp hd with rfl | hd
    · exact Nat.lt_succ_self _
    · exact Nat.lt_succ_of_lt (h.named_lt d hd)
  · intro d hd hset
    rcases List.mem_cons.mp hd with rfl | hd
    · obtain ⟨keys, hkeys⟩ := Option.isSome_iff_exists.mp hset
      exact (hnew keys hkeys).2
    · rw [hsets _ (Nat.ne_of_lt (h.named_lt d hd))] at hset
      exact h.events d hd hset
  · apply h.bounded.mono
    rintro a b ⟨⟨keys, hkeys, key, hkey, rfl⟩, hsome⟩
    have ha : a ≠ s.next := by
      rintro rfl
      rw [(hnew keys hkeys).1] at hkey
      exact absurd hkey List.not_mem_nil
    rw [hsets a ha] at hkeys
    rw [hsets _ (Nat.ne_of_lt (h.keys_lt a keys hkeys key hkey))] at hsome
    exact ⟨⟨keys, hkeys, key, hkey, rfl⟩, hsome⟩

/-- The graph with the new registration. -/
def registered (s : Process) (parent : Nat) (entry : Descriptor) : Nat → Nat → Prop :=
  if entry.event then With s.sets parent entry.descriptionId else Edge s.sets

variable {entry : Descriptor}

theorem Inv.added (h : s.Inv) {keys : List Key}
    (hget : s.get fd = some entry) (hkeys : s.sets parent = some keys)
    (hbounded : Bounded (s.registered parent entry)) :
    Inv { s with sets :=
      Function.update s.sets parent (some (⟨fd, entry.descriptionId⟩ :: keys)) } := by
  have hmem := mem_of_get hget
  have hsome : ∀ id, (Function.update s.sets parent
      (some ((⟨fd, entry.descriptionId⟩ : Key) :: keys)) id).isSome → (s.sets id).isSome := by
    intro id hid
    by_cases heq : id = parent
    · rw [heq, hkeys]
      rfl
    · rwa [Function.update_of_ne heq] at hid
  constructor
  · exact fun id hid => h.sets_lt id (hsome id hid)
  · intro id keys' hkeys' key hkey
    dsimp only at hkeys'
    by_cases heq : id = parent
    · subst heq
      rw [Function.update_self, Option.some.injEq] at hkeys'
      subst hkeys'
      rcases List.mem_cons.mp hkey with rfl | hkey
      · exact h.named_lt _ hmem
      · exact h.keys_lt id keys hkeys key hkey
    · rw [Function.update_of_ne heq] at hkeys'
      exact h.keys_lt id keys' hkeys' key hkey
  · exact h.named_lt
  · exact fun d hd hid => h.events d hd (hsome _ hid)
  · apply hbounded.mono
    rintro a b ⟨⟨keys', hkeys', key, hkey, rfl⟩, hid⟩
    dsimp only at hkeys'
    replace hid := hsome _ hid
    have hold : Edge s.sets a key.descriptionId → s.registered parent entry a key.descriptionId := by
      intro hedge
      unfold registered
      split
      · exact .inl hedge
      · exact hedge
    by_cases heq : a = parent
    · subst heq
      rw [Function.update_self, Option.some.injEq] at hkeys'
      subst hkeys'
      rcases List.mem_cons.mp hkey with rfl | hkey
      · unfold registered
        rw [if_pos (h.events _ hmem hid)]
        exact .inr ⟨rfl, rfl, hid⟩
      · exact hold ⟨⟨keys, hkeys, key, hkey, rfl⟩, hid⟩
    · rw [Function.update_of_ne heq] at hkeys'
      exact hold ⟨⟨keys', hkeys', key, hkey, rfl⟩, hid⟩

variable {op : Op}

theorem Inv.controlSet (h : s.Inv)
    (hget : s.get fd = some entry) (prepared published : Except Refusal Unit) :
    (s.controlSet parent op fd entry prepared published).2.Inv := by
  unfold Process.controlSet
  cases prepared with
  | error e => exact h
  | ok u =>
    cases hkeys : s.sets parent with
    | none => exact h
    | some keys =>
      dsimp only
      cases hvalid : if op = .add ∧ entry.event then
          validateNesting s.sets parent entry.descriptionId s.next else .ok () with
      | error e => exact h
      | ok u =>
        cases op with
        | add =>
          dsimp only
          split
          · exact h
          refine h.added hget hkeys ?_
          unfold registered
          split
          · next hevent =>
            rw [if_pos ⟨rfl, hevent⟩] at hvalid
            exact (validateNesting_ok_iff h.sets_lt (by rw [hkeys]; rfl)).mp hvalid
          · exact h.bounded
        | modify =>
          dsimp only
          split <;> exact h
        | delete =>
          dsimp only
          split
          · refine h.shrink rfl (fun d hd => ⟨d, hd, rfl⟩) fun id keys' hkeys' => ?_
            dsimp only at hkeys'
            by_cases heq : id = parent
            · subst heq
              rw [Function.update_self, Option.some.injEq] at hkeys'
              exact ⟨keys, hkeys, hkeys' ▸ List.erase_subset⟩
            · rw [Function.update_of_ne heq] at hkeys'
              exact ⟨keys', hkeys', List.Subset.refl _⟩
          · exact h

theorem Inv.step (h : s.Inv) (call : Call) : (s.step call).Inv := by
  have hsame : ∀ d ∈ s.descriptors, ∃ d' ∈ s.descriptors, d'.2 = d.2 := fun d hd => ⟨d, hd, rfl⟩
  have hfilter : ∀ {id : Nat} {keys : List Key} (kept : Key → Bool),
      (s.sets id).map (fun keys => keys.filter kept) = some keys →
        ∃ keys', s.sets id = some keys' ∧ keys ⊆ keys' := by
    intro id keys kept hkeys
    obtain ⟨keys', hkeys', rfl⟩ := Option.map_eq_some_iff.mp hkeys
    exact ⟨keys', hkeys', fun key hkey => (List.mem_filter.mp hkey).1⟩
  cases call with
  | create fd event =>
    change (s.create fd event).Inv
    unfold Process.create
    split
    · exact h
    · exact h.opened fd event
  | dup fd copy =>
    change (s.dup fd copy).Inv
    unfold Process.dup
    split
    · next entry hget =>
      split
      · exact h
      refine h.shrink rfl (fun d hd => ?_) fun id keys hkeys => ⟨keys, hkeys, List.Subset.refl _⟩
      rcases List.mem_cons.mp hd with rfl | hd
      · exact ⟨_, mem_of_get hget, rfl⟩
      · exact hsame d hd
    · exact h
  | ctl epollFd op fd prepared published =>
    change (s.epollCtl epollFd op fd prepared published).2.Inv
    unfold Process.epollCtl
    split
    · exact h
    split
    · exact h
    split
    · exact h
    split
    · exact h
    · next entry hget =>
      split
      · exact h
      · exact h.controlSet hget prepared published
  | close fd kept =>
    change (s.close fd kept).Inv
    unfold Process.close
    split
    · exact h
    · next entry hget =>
      have hrest : ∀ d ∈ s.descriptors.filter (fun d => d.1 ≠ fd), ∃ d' ∈ s.descriptors,
          d'.2 = d.2 := fun d hd => hsame d (List.mem_filter.mp hd).1
      dsimp only
      split
      · exact h.shrink rfl hrest fun id keys hkeys => ⟨keys, hkeys, List.Subset.refl _⟩
      refine h.shrink rfl hrest fun id keys hkeys => ?_
      dsimp only at hkeys
      by_cases heq : id = entry.descriptionId
      · rw [heq, Function.update_self] at hkeys
        cases hkeys
      · rw [Function.update_of_ne heq] at hkeys
        exact hfilter _ hkeys
  | retire kept => exact h.shrink rfl hsame fun id keys hkeys => hfilter (kept id) hkeys

theorem Inv.initial : Inv {} where
  sets_lt := by
    intro id h
    cases h
  keys_lt := by
    intro id keys h
    cases h
  named_lt := by simp
  events := by simp
  bounded := by
    rw [bounded_iff]
    intro l hchain
    cases l with
    | nil => exact ⟨List.nodup_nil, Nat.zero_le 5⟩
    | cons a l =>
      cases l with
      | nil => exact ⟨List.pairwise_singleton _ a, by simp⟩
      | cons b l =>
        obtain ⟨⟨keys, hkeys, -⟩, -⟩ := (List.isChain_cons_cons.mp hchain).1
        cases hkeys

/-! ## Refusals -/

/-- An addition that comes to the check of its edge: a set, and an entry of another description. -/
structure Asked (s : Process) (epollFd fd : Int) (parent : Nat) (entry : Descriptor) : Prop where
  fd_nonneg : 0 ≤ epollFd
  named : s.get epollFd = some ⟨parent, true⟩
  target : s.get fd = some entry
  apart : parent ≠ entry.descriptionId
  attached : (s.sets parent).isSome

theorem Asked.epollCtl {epollFd : Int}
    (h : s.Asked epollFd fd parent entry) (op : Op) (prepared published : Except Refusal Unit) :
    s.epollCtl epollFd op fd prepared published =
      s.controlSet parent op fd entry prepared published := by
  unfold Process.epollCtl
  rw [if_neg (Int.not_lt.mpr h.fd_nonneg), h.named, h.target]
  exact if_neg h.apart

theorem controlSet_loop {prepared published : Except Refusal Unit} :
    (s.controlSet parent op fd entry prepared published).1 = .error .ELOOP ↔
      op = .add ∧ prepared = .ok () ∧ (s.sets parent).isSome ∧ entry.event = true ∧
        validateNesting s.sets parent entry.descriptionId s.next ≠ .ok () := by
  have hpublished : published.mapError .refused ≠ .error Errno.ELOOP := by
    cases published with
    | error | ok => simp [Except.mapError]
  unfold Process.controlSet
  cases prepared with
  | error e => simp
  | ok u =>
    cases hkeys : s.sets parent with
    | none => simp
    | some keys =>
      dsimp only
      by_cases hasked : op = .add ∧ entry.event = true
      · obtain ⟨rfl, hevent⟩ := hasked
        rw [if_pos ⟨rfl, hevent⟩]
        rcases validateNesting_cases s.sets parent entry.descriptionId s.next with hok | hloop
        · rw [hok]
          dsimp only
          split <;> simp [hpublished]
        · rw [hloop]
          simp [hevent]
      · rw [if_neg hasked]
        refine iff_of_false ?_ fun h => hasked ⟨h.1, h.2.2.2.1⟩
        cases op with
        | add | modify | delete =>
          dsimp only
          split <;> simp [hpublished]

theorem controlSet_refused {prepared published : Except Refusal Unit}
    (h : (s.controlSet parent op fd entry prepared published).1 = .error .ELOOP) :
    (s.controlSet parent op fd entry prepared published).2 = s := by
  obtain ⟨rfl, rfl, hset, hevent, hloop⟩ := controlSet_loop.mp h
  obtain ⟨keys, hkeys⟩ := Option.isSome_iff_exists.mp hset
  unfold Process.controlSet
  rw [hkeys]
  dsimp only
  rw [if_pos ⟨rfl, hevent⟩, (validateNesting_cases _ _ _ _).resolve_left hloop]

/-- A call that fails with `ELOOP` has come to the check. -/
theorem asked_of_loop {epollFd : Int} {prepared published : Except Refusal Unit}
    (h : (s.epollCtl epollFd op fd prepared published).1 = .error .ELOOP) :
    ∃ parent entry, s.Asked epollFd fd parent entry := by
  unfold Process.epollCtl at h
  split at h
  · cases h
  · next hfd =>
    split at h
    · cases h
    · next set hset =>
      split at h
      · cases h
      · next hevent =>
        split at h
        · cases h
        · next entry hentry =>
          split at h
          · cases h
          · next hapart =>
            obtain ⟨id, event⟩ := set
            obtain rfl : event = true := by simpa using hevent
            exact ⟨id, entry, Int.not_lt.mp hfd, hset, hentry, hapart, (controlSet_loop.mp h).2.2.1⟩

/-- The sets of a process stay bounded, and what is refused for it would not be. -/
theorem nesting_bounded (calls : List Call) : Bounded (Edge (run step {} calls).sets) ∧
      ∀ (epollFd fd : Int) (prepared published : Except Refusal Unit),
        (((run step {} calls).epollCtl epollFd .add fd prepared published).1 = .error .ELOOP ↔
          prepared = .ok () ∧ ∃ parent entry, (run step {} calls).Asked epollFd fd parent entry ∧
            ¬ Bounded ((run step {} calls).registered parent entry)) ∧
        (((run step {} calls).epollCtl epollFd .add fd prepared published).1 = .error .ELOOP →
          ((run step {} calls).epollCtl epollFd .add fd prepared published).2 =
            run step {} calls) := by
  have hstart : Reachable step (fun s => s = ({} : Process)) {} := .start rfl
  have hinv : (run step {} calls).Inv := (hstart.run step calls).invariant step
    (fun s hs => hs ▸ Inv.initial) fun s call hs => hs.step call
  refine ⟨hinv.bounded, fun epollFd fd prepared published => ⟨?_, ?_⟩⟩
  · generalize run step {} calls = s at hinv
    constructor
    · intro h
      obtain ⟨parent, entry, hasked⟩ := asked_of_loop h
      rw [hasked.epollCtl] at h
      obtain ⟨-, hprepared, hset, hevent, hloop⟩ := controlSet_loop.mp h
      refine ⟨hprepared, parent, entry, hasked, ?_⟩
      unfold registered
      rwa [if_pos hevent, ← validateNesting_ok_iff hinv.sets_lt hset]
    · rintro ⟨hprepared, parent, entry, hasked, hbounded⟩
      rw [hasked.epollCtl, controlSet_loop]
      unfold registered at hbounded
      split at hbounded
      · next hevent =>
        rw [← validateNesting_ok_iff hinv.sets_lt hasked.attached] at hbounded
        exact ⟨rfl, hprepared, hasked.attached, hevent, hbounded⟩
      · exact absurd hinv.bounded hbounded
  · intro h
    obtain ⟨parent, entry, hasked⟩ := asked_of_loop h
    rw [hasked.epollCtl] at h ⊢
    exact controlSet_refused h

/-- A set that is to be registered with itself is refused before the check. -/
theorem self_refused : ¬ ∀ (calls : List Call) (epollFd fd : Int) (parent : Nat)
    (entry : Descriptor),
    (run step {} calls).get epollFd = some ⟨parent, true⟩ →
      (run step {} calls).get fd = some entry →
        (((run step {} calls).epollCtl epollFd .add fd (.ok ()) (.ok ())).1 = .error .ELOOP ↔
          ¬ Bounded ((run step {} calls).registered parent entry)) := by
  intro h
  have hloop := h [.create 3 true] 3 3 1 ⟨1, true⟩ rfl rfl
  have hcycle : (run step {} [.create 3 true]).registered 1 ⟨1, true⟩ 1 1 := .inr ⟨rfl, rfl, rfl⟩
  have hresult := hloop.mpr fun hbounded => hbounded.acyclic 1 (.single hcycle)
  revert hresult
  decide

end Process

end Kinakaze.Epoll.Nesting
