import Mathlib.Data.List.Nodup
import Kinakaze.Library.Cycles

/-!
# Signals to a process group

`resolve` and `members` of the process table. An exec leaves a proxy, whose signals belong to the
process it names as its delegate.
-/

namespace Kinakaze.Signal

open Library

def FLAG_PROXY : BitVec 32 := 1 <<< 0
def FLAG_ZOMBIE : BitVec 32 := 1 <<< 2

/-- An occupied row. -/
structure Entry where
  namespacePid : Nat
  pgid : Nat
  flags : BitVec 32
  delegate : Nat
  deriving DecidableEq

def Entry.proxy (e : Entry) : Bool := e.flags &&& FLAG_PROXY != 0

def Entry.zombie (e : Entry) : Bool := e.flags &&& FLAG_ZOMBIE != 0

def Entry.forwards (e : Entry) : Bool := e.proxy && e.delegate != 0

/-- The occupied rows in their order, as a sweep leaves them. -/
structure Table where
  rows : List Entry
  named : ∀ e ∈ rows, e.namespacePid ≠ 0
  distinct : (rows.map Entry.namespacePid).Nodup

namespace Table

variable (t : Table)

def lookup (pid : Nat) : Option Entry :=
  if pid = 0 then none else t.rows.find? (·.namespacePid = pid)

/-- The loop of `resolve`, with the rounds that are left. -/
def follow : Nat → Entry → Entry
  | 0, current => current
  | rounds + 1, current =>
    if !current.proxy || current.delegate = 0 then current
    else
      match t.lookup current.delegate with
      | some next => follow rounds next
      | none => current

def resolve (pid : Nat) : Option Entry := (t.lookup pid).map (t.follow 8)

/-- The rows of the group that can receive a signal. -/
def found (pgid : Nat) : List Entry := t.rows.filter fun e => e.pgid = pgid && !e.zombie

def delegates (pgid : Nat) : List Nat :=
  ((t.found pgid).filter fun e => e.proxy && e.delegate != 0).map Entry.delegate

def members (pgid : Nat) : List Entry :=
  (t.found pgid).filter fun e =>
    !e.proxy || e.delegate = 0 || !(t.delegates pgid).contains e.delegate

/-- Where a signal to the group goes. -/
def signalled (pgid : Nat) : List Entry :=
  (t.members pgid).filterMap fun e => t.resolve e.namespacePid

/-! ## Chains of delegates -/

/-- A proxy and its registered delegate. -/
def Link (a b : Entry) : Prop := a.forwards = true ∧ t.lookup a.delegate = some b

/-- A chain of at most eight links that goes no further. -/
def ChainEnd (a b : Entry) : Prop := ∃ n ≤ 8, Iterate t.Link n a b ∧ ∀ c, ¬ t.Link b c

/-- The images of the group: what the chains of its rows end in. -/
def Image (pgid : Nat) (b : Entry) : Prop := ∃ a ∈ t.found pgid, t.ChainEnd a b

/-- A signal to the group goes to its images, once each. -/
def Exact (pgid : Nat) : Prop :=
  ((t.signalled pgid).map Entry.namespacePid).Nodup ∧ ∀ b, b ∈ t.signalled pgid ↔ t.Image pgid b

/-- The chain of every proxy of the group leads to a row of the group that forwards to nobody. -/
def Settled (pgid : Nat) : Prop :=
  ∀ a ∈ t.found pgid, a.forwards = true →
    ∃ n ≤ 8, ∃ b ∈ t.found pgid, Iterate t.Link n a b ∧ b.forwards = false

variable {t} {a b c : Entry} {n m : Nat} {pgid : Nat}

theorem not_link (h : a.forwards = false) (b : Entry) : ¬ t.Link a b := by
  intro hlink
  rw [hlink.1] at h
  cases h

theorem chain_unique (hb : Iterate t.Link n a b) (hlast : ∀ d, ¬ t.Link b d)
    (hc : Iterate t.Link m a c) (hlast' : ∀ d, ¬ t.Link c d) : b = c := by
  induction n generalizing a m with
  | zero =>
    obtain rfl : a = b := hb
    cases m with
    | zero => exact hc
    | succ m =>
      obtain ⟨d, hlink, -⟩ := hc
      exact absurd hlink (hlast d)
  | succ n ih =>
    obtain ⟨d, hlink, hrest⟩ := hb
    cases m with
    | zero =>
      obtain rfl : a = c := hc
      exact absurd hlink (hlast' d)
    | succ m =>
      obtain ⟨d', hlink', hrest'⟩ := hc
      obtain rfl : d = d' := Option.some.inj (hlink.2.symm.trans hlink'.2)
      exact ih hrest hrest'

theorem follow_of_chain {rounds : Nat} (h : Iterate t.Link n a b) (hlast : ∀ c, ¬ t.Link b c)
    (hn : n ≤ rounds) : t.follow rounds a = b := by
  induction rounds generalizing a n with
  | zero =>
    obtain rfl : n = 0 := Nat.le_zero.mp hn
    exact h
  | succ rounds ih =>
    unfold follow
    by_cases hforwards : a.forwards = true
    · have hguard : (!a.proxy || decide (a.delegate = 0)) = false := by
        simpa [Entry.forwards] using hforwards
      rw [hguard, if_neg Bool.false_ne_true]
      cases n with
      | zero =>
        obtain rfl : a = b := h
        cases hlookup : t.lookup a.delegate with
        | none => rfl
        | some next => exact absurd ⟨hforwards, hlookup⟩ (hlast next)
      | succ n =>
        obtain ⟨c, hlink, hrest⟩ := h
        rw [hlink.2]
        exact ih hrest (Nat.le_of_succ_le_succ hn)
    · have hguard : (!a.proxy || decide (a.delegate = 0)) = true := by
        simpa [Entry.forwards, or_iff_not_imp_left] using hforwards
      rw [if_pos hguard]
      cases n with
      | zero => exact h
      | succ n =>
        obtain ⟨c, hlink, -⟩ := h
        exact absurd hlink.1 hforwards

theorem lookup_of_mem (h : a ∈ t.rows) : t.lookup a.namespacePid = some a := by
  unfold lookup
  rw [if_neg (t.named a h)]
  cases hfind : t.rows.find? (·.namespacePid = a.namespacePid) with
  | none => simpa using List.find?_eq_none.mp hfind a h
  | some b =>
    have hpid : b.namespacePid = a.namespacePid := by simpa using List.find?_some hfind
    rw [List.inj_on_of_nodup_map t.distinct (List.mem_of_find?_eq_some hfind) h hpid]

theorem resolve_of_chainEnd (h : a ∈ t.rows) (hend : t.ChainEnd a b) :
    t.resolve a.namespacePid = some b := by
  obtain ⟨n, hn, hchain, hlast⟩ := hend
  unfold resolve
  rw [lookup_of_mem h, Option.map_some, follow_of_chain hchain hlast hn]

/-! ## The members -/

theorem members_eq : t.members pgid = (t.found pgid).filter fun e => !e.forwards := by
  apply List.filter_congr
  intro e he
  cases hforwards : e.forwards with
  | false =>
    have hguard : (!e.proxy || decide (e.delegate = 0)) = true := by
      simpa [Entry.forwards, or_iff_not_imp_left] using hforwards
    rw [hguard]
    rfl
  | true =>
    -- a proxy always finds its own delegate among those that were collected
    have hown : (t.delegates pgid).contains e.delegate = true :=
      List.contains_iff_mem.mpr (List.mem_map.mpr ⟨e, List.mem_filter.mpr ⟨he, hforwards⟩, rfl⟩)
    have hguard : (!e.proxy || decide (e.delegate = 0)) = false := by
      simpa [Entry.forwards] using hforwards
    rw [hguard, hown]
    rfl

theorem mem_members : a ∈ t.members pgid ↔ a ∈ t.found pgid ∧ a.forwards = false := by
  rw [members_eq, List.mem_filter, Bool.not_eq_true']

theorem mem_rows (h : a ∈ t.found pgid) : a ∈ t.rows := (List.mem_filter.mp h).1

theorem chainEnd_self (h : a.forwards = false) : t.ChainEnd a a :=
  ⟨0, Nat.zero_le 8, rfl, not_link h⟩

theorem signalled_eq : t.signalled pgid = t.members pgid := by
  have hself : ∀ e ∈ t.members pgid, t.resolve e.namespacePid = some e := by
    intro e he
    rw [mem_members] at he
    exact resolve_of_chainEnd (mem_rows he.1) (chainEnd_self he.2)
  exact (List.filterMap_congr hself).trans List.filterMap_some

theorem signalled_nodup : ((t.signalled pgid).map Entry.namespacePid).Nodup := by
  rw [signalled_eq, members_eq]
  exact (t.distinct.sublist ((List.filter_sublist.trans List.filter_sublist).map _))

/-- The images of a group all get a signal exactly when none of its chains leaves it. -/
theorem signalled_exact_iff (t : Table) (pgid : Nat)
    (hchains : ∀ a ∈ t.found pgid, ∃ b, t.ChainEnd a b) : t.Exact pgid ↔ t.Settled pgid := by
  constructor
  · rintro ⟨-, hexact⟩ a ha -
    obtain ⟨b, hend⟩ := hchains a ha
    have hb := (hexact b).mpr ⟨a, ha, hend⟩
    rw [signalled_eq, mem_members] at hb
    obtain ⟨n, hn, hchain, -⟩ := hend
    exact ⟨n, hn, b, hb.1, hchain, hb.2⟩
  · intro hsettled
    have hsome : ∀ b, b ∈ t.signalled pgid ↔ t.Image pgid b := by
      intro b
      rw [signalled_eq, mem_members]
      constructor
      · exact fun hb => ⟨b, hb.1, chainEnd_self hb.2⟩
      · rintro ⟨a, ha, m, -, hchain, hlast⟩
        cases hforwards : a.forwards with
        | false =>
          obtain rfl : a = b :=
            chain_unique (n := 0) rfl (not_link hforwards) hchain hlast
          exact ⟨ha, hforwards⟩
        | true =>
          obtain ⟨n, -, c, hc, hchain', hstays⟩ := hsettled a ha hforwards
          obtain rfl : b = c := chain_unique hchain hlast hchain' (not_link hstays)
          exact ⟨hc, hstays⟩
    exact ⟨signalled_nodup, hsome⟩

/-- A proxy and its delegate in one group. -/
def execed : Table where
  rows := [⟨1, 7, FLAG_PROXY, 2⟩, ⟨2, 7, 0, 0⟩]
  named := by decide
  distinct := by decide

theorem execed_exact : execed.Exact 7 := by
  have hlink : execed.Link ⟨1, 7, FLAG_PROXY, 2⟩ ⟨2, 7, 0, 0⟩ := ⟨by decide, by decide⟩
  have hchain : Iterate execed.Link 1 ⟨1, 7, FLAG_PROXY, 2⟩ ⟨2, 7, 0, 0⟩ := ⟨_, hlink, rfl⟩
  have hfound : ∀ a ∈ execed.found 7, a = ⟨1, 7, FLAG_PROXY, 2⟩ ∨ a = ⟨2, 7, 0, 0⟩ := by
    decide +kernel
  refine (signalled_exact_iff execed 7 ?_).mpr ?_
  · intro a ha
    rcases hfound a ha with rfl | rfl
    · exact ⟨_, 1, by decide, hchain, not_link (by decide)⟩
    · exact ⟨_, chainEnd_self (by decide)⟩
  · intro a ha hforwards
    rcases hfound a ha with rfl | rfl
    · exact ⟨1, by decide, _, by decide +kernel, hchain, by decide⟩
    · exact absurd hforwards (by decide)

/-- A proxy whose delegate has not registered yet. -/
def spawning : Table where
  rows := [⟨1, 7, FLAG_PROXY, 2⟩]
  named := by decide
  distinct := by decide

/-- Nobody gets the signal, though the proxy stands for itself. -/
theorem spawning_skipped : ¬ ∀ (t : Table) (pgid : Nat),
    (∀ a ∈ t.found pgid, ∃ b, t.ChainEnd a b) → t.Exact pgid := by
  intro hall
  have hend : spawning.ChainEnd ⟨1, 7, FLAG_PROXY, 2⟩ ⟨1, 7, FLAG_PROXY, 2⟩ := by
    refine ⟨0, Nat.zero_le 8, rfl, ?_⟩
    rintro c ⟨-, hlookup⟩
    cases hlookup
  have hfound : ∀ a ∈ spawning.found 7, a = ⟨1, 7, FLAG_PROXY, 2⟩ := by decide +kernel
  obtain ⟨-, hexact⟩ := hall spawning 7 fun a ha => by
    rw [hfound a ha]
    exact ⟨_, hend⟩
  have hmem := (hexact _).mpr ⟨_, by decide +kernel, hend⟩
  rw [signalled_eq] at hmem
  revert hmem
  decide +kernel

end Table

end Kinakaze.Signal
