import Kinakaze.RecordLock.Bodies

/-!
# The lock table is a map from bytes to locks

What the table is for: each owner holds each byte of each file for reading, for
writing or not at all.  `lockMap` reads that off the table, and the three things
that happen to locks happen to the map.
-/

namespace Kinakaze.RecordLock

open Library State

/-! ## The map -/

/-- What each owner holds on each byte of each file. -/
abbrev LockMap := Inode → Owner → Nat → Option Kind

namespace LockMap

/-- Set the bytes of `wanted`, or clear them. -/
def assign (m : LockMap) (wanted : Record) (unlock : Bool) : LockMap := fun inode owner byte =>
  if inode = wanted.inode ∧ owner = wanted.owner ∧ wanted.range.covers byte then
    if unlock then none else some wanted.kind
  else m inode owner byte

def release (m : LockMap) (released : Owner) (inodes : List Inode) : LockMap :=
  fun inode owner byte =>
    if owner = released ∧ inode ∈ inodes then none else m inode owner byte

/-- Only the living hold locks. -/
def bury (m : LockMap) (alive : Owner → Bool) : LockMap := fun inode owner byte =>
  if alive owner then m inode owner byte else none

end LockMap

/-- The record gives its owner `kind` on that byte. -/
def Record.gives (r : Record) (inode : Inode) (owner : Owner) (byte : Nat) (kind : Kind) : Prop :=
  r.inode = inode ∧ r.owner = owner ∧ r.range.covers byte ∧ r.kind = kind

def lockMap (locks : List Record) : LockMap := fun inode owner byte =>
  (locks.find? fun r => r.inode = inode ∧ r.owner = owner ∧ r.range.covers byte).map Record.kind

/-- The locks a table gives, read record by record. -/
def Holds (locks : List Record) (inode : Inode) (owner : Owner) (byte : Nat) (kind : Kind) :
    Prop :=
  ∃ r ∈ locks, r.gives inode owner byte kind

/-! ## Canonical tables -/

/-- Of one file and one owner, the two records share no byte. -/
def Parted (a b : Record) : Prop :=
  a.inode = b.inode → a.owner = b.owner → ¬ a.range.overlaps b.range

instance : Std.Symm Parted where
  symm _ _ h hinode howner hoverlaps :=
    h hinode.symm howner.symm ⟨hoverlaps.2, hoverlaps.1⟩

structure Canonical (locks : List Record) : Prop where
  sorted : locks.Pairwise fun a b => a.key < b.key
  disjoint : locks.Pairwise Parted
  merged : locks.Pairwise fun a b =>
    a.inode = b.inode → a.owner = b.owner → a.kind = b.kind → a.range.stop + 1 ≠ b.range.start

/-- `a` comes first, and ends first where both lie in one file for one owner. -/
def Ahead (a b : Record) : Prop :=
  a.key ≤ b.key ∧ (a.inode = b.inode → a.owner = b.owner → a.range.stop < b.range.start)

variable {a b wanted old : Record}

theorem place_eq : a.place = b.place ↔ a.inode = b.inode ∧ a.owner = b.owner := by
  obtain ⟨⟨_, _, _⟩, ⟨_, _, _⟩, _, _⟩ := a
  obtain ⟨⟨_, _, _⟩, ⟨_, _, _⟩, _, _⟩ := b
  simp only [Record.place, List.cons.injEq, Inode.mk.injEq, Owner.mk.injEq]
  tauto

theorem key_le :
    a.key ≤ b.key ↔ a.place < b.place ∨ a.place = b.place ∧ a.range.start ≤ b.range.start :=
  Prod.Lex.toLex_le_toLex

theorem key_lt :
    a.key < b.key ↔ a.place < b.place ∨ a.place = b.place ∧ a.range.start < b.range.start :=
  Prod.Lex.toLex_lt_toLex

theorem place_le (h : a.key ≤ b.key) : a.place ≤ b.place := by
  rcases key_le.mp h with hlt | ⟨heq, -⟩
  · exact le_of_lt hlt
  · exact le_of_eq heq

theorem Ahead.key_lt (h : Ahead a b) : a.key < b.key := by
  rcases key_le.mp h.1 with hlt | ⟨heq, -⟩
  · exact RecordLock.key_lt.mpr (Or.inl hlt)
  obtain ⟨hinode, howner⟩ := place_eq.mp heq
  have hbefore := h.2 hinode howner
  have hordered := a.range.ordered
  exact RecordLock.key_lt.mpr (Or.inr ⟨heq, by omega⟩)

theorem Ahead.parted (h : Ahead a b) : Parted a b := by
  intro hinode howner
  have hbefore := h.2 hinode howner
  unfold Range.overlaps
  omega

theorem ahead_of_parted (hkey : a.key ≤ b.key) (hparted : Parted a b) : Ahead a b := by
  refine ⟨hkey, fun hinode howner => ?_⟩
  have hnot := hparted hinode howner
  have hstart : a.range.start ≤ b.range.start := by
    rcases key_le.mp hkey with hlt | ⟨-, hle⟩
    · exact absurd (place_eq.mpr ⟨hinode, howner⟩) (ne_of_lt hlt)
    · exact hle
  have ha := a.range.ordered
  have hb := b.range.ordered
  unfold Range.overlaps at hnot
  omega

variable {locks : List Record}

theorem canonical_of_pairwise
    (h : locks.Pairwise fun a b => Ahead a b ∧ ¬ touches a b) : Canonical locks where
  sorted := h.imp fun hab => hab.1.key_lt
  disjoint := h.imp fun hab => hab.1.parted
  merged := h.imp fun hab hinode howner hkind htouch =>
    hab.2 ⟨hinode, howner, hkind, by omega⟩

theorem Canonical.filter (h : Canonical locks) (p : Record → Bool) : Canonical (locks.filter p) :=
  ⟨h.sorted.filter p, h.disjoint.filter p, h.merged.filter p⟩

theorem canonical_nil : Canonical [] := ⟨.nil, .nil, .nil⟩

variable {byte : Nat}

theorem Canonical.unique (h : Canonical locks)
    (ha : a ∈ locks) (hb : b ∈ locks) (hinode : a.inode = b.inode)
    (howner : a.owner = b.owner) (hcovers : a.range.covers byte) (hcovers' : b.range.covers byte) :
    a = b := by
  by_contra hne
  apply h.disjoint.forall ha hb hne hinode howner
  exact ⟨Nat.le_trans hcovers.1 hcovers'.2, Nat.le_trans hcovers'.1 hcovers.2⟩

variable {inode : Inode} {owner : Owner} {kind : Kind}

theorem lockMap_eq_some (h : Canonical locks) :
    lockMap locks inode owner byte = some kind ↔ Holds locks inode owner byte kind := by
  unfold lockMap Holds Record.gives
  constructor
  · intro hfound
    obtain ⟨r, hr, hkind⟩ := Option.map_eq_some_iff.mp hfound
    have hgives := List.find?_some hr
    simp only [decide_eq_true_eq] at hgives
    exact ⟨r, List.mem_of_find?_eq_some hr, hgives.1, hgives.2.1, hgives.2.2, hkind⟩
  · rintro ⟨r, hmem, hinode, howner, hcovers, hkind⟩
    cases hfound : locks.find? fun r =>
        r.inode = inode ∧ r.owner = owner ∧ r.range.covers byte with
    | none =>
      have hnone := List.find?_eq_none.mp hfound r hmem
      simp [hinode, howner, hcovers] at hnone
    | some found =>
      have hgives := List.find?_some hfound
      simp only [decide_eq_true_eq] at hgives
      have hsame := h.unique (List.mem_of_find?_eq_some hfound) hmem
        (hgives.1.trans hinode.symm) (hgives.2.1.trans howner.symm) hgives.2.2 hcovers
      rw [hsame, Option.map_some, hkind]

/-! ## Trimming -/

/-- What every piece of an old record is. -/
structure Piece (wanted old piece : Record) : Prop where
  inode : piece.inode = old.inode
  owner : piece.owner = old.owner
  kind : piece.kind = old.kind
  start : old.range.start ≤ piece.range.start
  stop : piece.range.stop ≤ old.range.stop
  apart : Parted piece wanted

theorem mem_trim_of_overlaps {piece : Record} (hinode : old.inode = wanted.inode)
    (howner : old.owner = wanted.owner) (hoverlaps : old.range.overlaps wanted.range) :
    piece ∈ trim wanted old ↔
      piece.inode = old.inode ∧ piece.owner = old.owner ∧ piece.kind = old.kind ∧
        ((old.range.start < wanted.range.start ∧ piece.range.start = old.range.start ∧
            piece.range.stop = wanted.range.start - 1) ∨
          (wanted.range.stop < old.range.stop ∧ piece.range.start = wanted.range.stop + 1 ∧
            piece.range.stop = old.range.stop)) := by
  rw [trim, if_neg (by simp [hinode, howner, hoverlaps]), List.mem_append]
  split_ifs with hleft hright hright
  · simp only [List.mem_singleton, Record.ext_iff, Range.ext_iff]
    tauto
  · simp only [List.mem_singleton, List.not_mem_nil, Record.ext_iff, Range.ext_iff]
    tauto
  · simp only [List.mem_singleton, List.not_mem_nil, Record.ext_iff, Range.ext_iff]
    tauto
  · simp only [List.not_mem_nil]
    tauto

theorem trim_of_not (h : ¬ (old.inode = wanted.inode ∧ old.owner = wanted.owner ∧
      old.range.overlaps wanted.range)) : trim wanted old = [old] := by
  rw [trim, if_pos]
  tauto

theorem mem_trim {piece : Record} (h : piece ∈ trim wanted old) : Piece wanted old piece := by
  by_cases hover : old.inode = wanted.inode ∧ old.owner = wanted.owner ∧
      old.range.overlaps wanted.range
  · obtain ⟨hinode, howner, hoverlaps⟩ := hover
    obtain ⟨hinode', howner', hkind, hends⟩ :=
      (mem_trim_of_overlaps hinode howner hoverlaps).mp h
    have hordered := piece.range.ordered
    have hwanted := wanted.range.ordered
    have hold := old.range.ordered
    unfold Range.overlaps at hoverlaps
    refine ⟨hinode', howner', hkind, by omega, by omega, fun _ _ hover => ?_⟩
    unfold Range.overlaps at hover
    omega
  · rw [trim_of_not hover, List.mem_singleton] at h
    subst h
    refine ⟨rfl, rfl, rfl, Nat.le_refl _, Nat.le_refl _, fun hinode howner hoverlaps => ?_⟩
    exact hover ⟨hinode, howner, hoverlaps⟩

theorem exists_trim : (∃ piece ∈ trim wanted old, piece.gives inode owner byte kind) ↔
      old.gives inode owner byte kind ∧
        ¬ (inode = wanted.inode ∧ owner = wanted.owner ∧ wanted.range.covers byte) := by
  constructor
  · rintro ⟨piece, hmem, hinode, howner, hcovers, hkind⟩
    have hpiece := mem_trim hmem
    have hstart := hpiece.start
    have hstop := hpiece.stop
    refine ⟨⟨hpiece.inode ▸ hinode, hpiece.owner ▸ howner, ?_, hpiece.kind ▸ hkind⟩, ?_⟩
    · unfold Range.covers at hcovers ⊢
      omega
    · rintro ⟨hinode', howner', hcovers'⟩
      apply hpiece.apart (hinode.trans hinode') (howner.trans howner')
      exact ⟨Nat.le_trans hcovers.1 hcovers'.2, Nat.le_trans hcovers'.1 hcovers.2⟩
  · rintro ⟨⟨hinode, howner, hcovers, hkind⟩, hout⟩
    by_cases hover : old.inode = wanted.inode ∧ old.owner = wanted.owner ∧
        old.range.overlaps wanted.range
    · have hnot : ¬ wanted.range.covers byte := fun hcovers' =>
        hout ⟨hinode.symm.trans hover.1, howner.symm.trans hover.2.1, hcovers'⟩
      have hmem := @mem_trim_of_overlaps wanted old
      by_cases hleft : byte < wanted.range.start
      · have hstart : old.range.start < wanted.range.start := Nat.lt_of_le_of_lt hcovers.1 hleft
        refine ⟨{ old with range := ⟨old.range.start, wanted.range.start - 1, ?_, ?_⟩ },
          (hmem hover.1 hover.2.1 hover.2.2).mpr ⟨rfl, rfl, rfl, Or.inl ⟨hstart, rfl, rfl⟩⟩,
          hinode, howner, ⟨hcovers.1, Nat.le_sub_one_of_lt hleft⟩, hkind⟩
        · exact Nat.le_sub_one_of_lt hstart
        · exact Nat.le_trans (Nat.sub_le _ _)
            (Nat.le_trans wanted.range.ordered wanted.range.bounded)
      · have hright : wanted.range.stop < byte := by
          unfold Range.covers at hnot
          omega
        have hstop : wanted.range.stop < old.range.stop := Nat.lt_of_lt_of_le hright hcovers.2
        exact ⟨{ old with range := ⟨wanted.range.stop + 1, old.range.stop, hstop,
            old.range.bounded⟩ },
          (hmem hover.1 hover.2.1 hover.2.2).mpr ⟨rfl, rfl, rfl, Or.inr ⟨hstop, rfl, rfl⟩⟩,
          hinode, howner, ⟨hright, hcovers.2⟩, hkind⟩
    · rw [trim_of_not hover]
      exact ⟨old, by simp, hinode, howner, hcovers, hkind⟩

theorem pairwise_trim (wanted old : Record) : (trim wanted old).Pairwise Parted := by
  unfold trim
  split_ifs with hother hleft hright hright
  · exact List.pairwise_singleton _ _
  · simp only [List.cons_append, List.nil_append, List.pairwise_pair]
    intro _ _ hoverlaps
    have hwanted := wanted.range.ordered
    simp only [Range.overlaps] at hoverlaps
    omega
  · exact List.pairwise_singleton _ _
  · exact List.pairwise_singleton _ _
  · exact List.Pairwise.nil

/-! ## The new table -/

theorem Piece.parted {x y : Record} (hx : Piece wanted a x) (hy : Piece wanted b y)
    (h : Parted a b) : Parted x y := by
  intro hinode howner hoverlaps
  apply h (hx.inode.symm.trans (hinode.trans hy.inode))
    (hx.owner.symm.trans (howner.trans hy.owner))
  exact ⟨Nat.le_trans hx.start (Nat.le_trans hoverlaps.1 hy.stop),
    Nat.le_trans hy.start (Nat.le_trans hoverlaps.2 hx.stop)⟩

theorem pairwise_replacement (h : locks.Pairwise Parted) (wanted : Record)
    (unlock : Bool) : (replacement locks wanted unlock).Pairwise Parted := by
  have hpieces : (locks.flatMap (trim wanted)).Pairwise Parted := by
    apply List.pairwise_flatMap.mpr
    constructor
    · exact fun old _ => pairwise_trim wanted old
    · exact h.imp fun hab x hx y hy => (mem_trim hx).parted (mem_trim hy) hab
  apply List.pairwise_append.mpr
  refine ⟨hpieces, ?_, ?_⟩
  · split_ifs
    · exact List.Pairwise.nil
    · exact List.pairwise_singleton _ _
  · intro piece hpiece last hlast
    obtain ⟨old, -, hin⟩ := List.mem_flatMap.mp hpiece
    split_ifs at hlast
    · simp at hlast
    · rw [List.mem_singleton] at hlast
      subst hlast
      exact (mem_trim hin).apart

theorem exists_replacement {unlock : Bool} :
    Holds (replacement locks wanted unlock) inode owner byte kind ↔
      (Holds locks inode owner byte kind ∧
        ¬ (inode = wanted.inode ∧ owner = wanted.owner ∧ wanted.range.covers byte)) ∨
      (unlock = false ∧ wanted.gives inode owner byte kind) := by
  unfold Holds replacement
  simp only [List.mem_append, List.mem_flatMap, or_and_right, exists_or]
  apply or_congr
  · constructor
    · rintro ⟨piece, ⟨old, hold, hpiece⟩, hgives⟩
      obtain ⟨hgives, hout⟩ := exists_trim.mp ⟨piece, hpiece, hgives⟩
      exact ⟨⟨old, hold, hgives⟩, hout⟩
    · rintro ⟨⟨old, hold, hgives⟩, hout⟩
      obtain ⟨piece, hpiece, hgives⟩ := exists_trim.mpr ⟨hgives, hout⟩
      exact ⟨piece, ⟨old, hold, hpiece⟩, hgives⟩
  · cases unlock with
    | true => simp
    | false => simp

theorem pairwise_sorted (h : locks.Pairwise Parted) (wanted : Record) (unlock : Bool) :
    ((replacement locks wanted unlock).insertionSort fun a b => a.key ≤ b.key).Pairwise Ahead := by
  have hsorted := List.pairwise_insertionSort (fun a b : Record => a.key ≤ b.key)
    (replacement locks wanted unlock)
  have hparted := (pairwise_replacement h wanted unlock).perm
    (List.perm_insertionSort (fun a b : Record => a.key ≤ b.key) _).symm
  exact (hsorted.and (hparted fun hab => symm hab)).imp fun hboth =>
    ahead_of_parted hboth.1 hboth.2

theorem joinable : Joinable touches extend Ahead where
  left a b c hab hjoins hac hbc := by
    refine ⟨hac.1, fun hinode howner => ?_⟩
    exact Nat.max_lt.mpr ⟨hac.2 hinode howner,
      hbc.2 (hjoins.1.symm.trans hinode) (hjoins.2.1.symm.trans howner)⟩
  right x a b hab hjoins hxa hxb := ⟨hxa.1, hxa.2⟩
  head x a b hjoins hxa hnot htouches := hnot htouches
  skip x a b hxa hnot hab hxb htouches := by
    obtain ⟨hinode, howner, hkind, htouch⟩ := htouches
    -- The record between two of one place lies in that place as well.
    have hplace : x.place = a.place := by
      apply le_antisymm (place_le hxa.1)
      rw [place_eq.mpr ⟨hinode, howner⟩]
      exact place_le hab.1
    obtain ⟨hinode', howner'⟩ := place_eq.mp hplace
    have hbefore := hxa.2 hinode' howner'
    have hafter := hab.2 (hinode'.symm.trans hinode) (howner'.symm.trans howner)
    have hordered := a.range.ordered
    omega

theorem extend_gives (hab : Ahead a b) (hjoins : touches a b) (inode : Inode) (owner : Owner)
    (kind : Kind) (byte : Nat) :
    (extend a b).gives inode owner byte kind ↔
      a.gives inode owner byte kind ∨ b.gives inode owner byte kind := by
  obtain ⟨hinode, howner, hkind, htouch⟩ := hjoins
  have hbefore := hab.2 hinode howner
  have ha := a.range.ordered
  have hb := b.range.ordered
  have hrange : (extend a b).range.covers byte ↔ a.range.covers byte ∨ b.range.covers byte := by
    simp only [extend, Range.covers]
    omega
  unfold Record.gives
  rw [hrange, ← hinode, ← howner, ← hkind]
  simp only [extend]
  tauto

theorem merged_canonical (h : Canonical locks) (wanted : Record)
    (unlock : Bool) : Canonical (merged locks wanted unlock) :=
  canonical_of_pairwise (pairwise_coalesce joinable _ (pairwise_sorted h.disjoint wanted unlock))

theorem holds_merged (h : Canonical locks) {unlock : Bool} :
    Holds (merged locks wanted unlock) inode owner byte kind ↔ (Holds locks inode owner byte kind ∧
        ¬ (inode = wanted.inode ∧ owner = wanted.owner ∧ wanted.range.covers byte)) ∨
      (unlock = false ∧ wanted.gives inode owner byte kind) := by
  have hcoalesce := exists_coalesce joinable (fun r byte => r.gives inode owner byte kind)
    (fun a b hab hjoins => extend_gives hab hjoins inode owner kind) byte _
    (pairwise_sorted h.disjoint wanted unlock)
  rw [← exists_replacement]
  unfold Holds merged
  rw [hcoalesce]
  simp only [(List.perm_insertionSort _ _).mem_iff]

theorem lockMap_merged (h : Canonical locks) (wanted : Record) (unlock : Bool) :
    lockMap (merged locks wanted unlock) = (lockMap locks).assign wanted unlock := by
  funext inode owner byte
  apply Option.ext
  intro kind
  rw [lockMap_eq_some (merged_canonical h wanted unlock), holds_merged h, ← lockMap_eq_some h]
  unfold LockMap.assign Record.gives
  by_cases hin : inode = wanted.inode ∧ owner = wanted.owner ∧ wanted.range.covers byte
  · rw [if_pos hin]
    obtain ⟨rfl, rfl, hcovers⟩ := hin
    cases unlock with
    | true | false => simp [hcovers]
  rw [if_neg hin]
  constructor
  · rintro (⟨hheld, -⟩ | ⟨-, hinode, howner, hcovers, -⟩)
    · exact hheld
    · exact absurd ⟨hinode.symm, howner.symm, hcovers⟩ hin
  · exact fun hheld => Or.inl ⟨hheld, hin⟩

/-! ## Transactions -/

theorem lockMap_filter (h : Canonical locks) (keep : Inode → Owner → Bool) (inode : Inode)
    (owner : Owner) (byte : Nat) :
    lockMap (locks.filter fun r => keep r.inode r.owner) inode owner byte =
      if keep inode owner then lockMap locks inode owner byte else none := by
  apply Option.ext
  intro kind
  rw [lockMap_eq_some (h.filter _)]
  have hfilter : Holds (locks.filter fun r => keep r.inode r.owner) inode owner byte kind ↔
      keep inode owner ∧ Holds locks inode owner byte kind := by
    unfold Holds Record.gives
    constructor
    · rintro ⟨r, hmem, rfl, rfl, hgives⟩
      obtain ⟨hmem, hkeep⟩ := List.mem_filter.mp hmem
      exact ⟨hkeep, r, hmem, rfl, rfl, hgives⟩
    · rintro ⟨hkeep, r, hmem, rfl, rfl, hgives⟩
      exact ⟨r, List.mem_filter.mpr ⟨hmem, hkeep⟩, rfl, rfl, hgives⟩
  rw [hfilter, ← lockMap_eq_some h]
  split_ifs with hkeep <;> simp [hkeep]

theorem lockMap_entered {bank : Bank} (h : Canonical bank.locks) (native : Native) :
    lockMap (entered native bank).locks = (lockMap bank.locks).bury native.alive := by
  funext inode owner byte
  exact lockMap_filter h (fun _ owner => native.alive owner) inode owner byte

theorem entered_canonical {bank : Bank} (h : Canonical bank.locks) (native : Native) :
    Canonical (entered native bank).locks :=
  h.filter _

/-- What a request does to the map, `done` telling whether a `set_owned` went
through. -/
def Request.apply (done : Bool) (m : LockMap) : Request → LockMap
  | .set call _ _ => if done then m.assign call.wanted call.kind.isNone else m
  | .withdraw _ => m
  | .release owner inodes => m.release owner inodes
  | .query _ _ => m

/-- The request went through. -/
def granted : Except Errno (Option Owner) → Bool
  | .ok none => true
  | _ => false

/-- The `set_owned` of the request goes through in the state. -/
def Request.done (s : State) : Request → Bool
  | .set call valid event => granted (setOwned call valid event s).1
  | _ => false

theorem Request.after_refines {s : State} (h : Canonical s.locks) (request : Request) :
    Canonical (request.after s).locks ∧
      lockMap (request.after s).locks = request.apply (request.done s) (lockMap s.locks) := by
  cases request with
  | set call valid event =>
    have houtcome := setOwned_outcome call valid event s
    change Canonical (setOwned call valid event s).2.locks ∧
      lockMap (setOwned call valid event s).2.locks =
        if granted (setOwned call valid event s).1 then
          (lockMap s.locks).assign call.wanted call.kind.isNone
        else lockMap s.locks
    generalize setOwned call valid event s = outcome at houtcome ⊢
    obtain ⟨result, s'⟩ := outcome
    cases houtcome with
    | invalid | again | deadlock | eventless | stillBlocked | crowded | blocked | full =>
      exact ⟨h, rfl⟩
    | done _ _ _ hlocks =>
      dsimp only
      rw [hlocks]
      exact ⟨merged_canonical h _ _, lockMap_merged h _ _⟩
  | withdraw | query => exact ⟨h, rfl⟩
  | release owner inodes =>
    refine ⟨h.filter _, ?_⟩
    funext inode other byte
    have hfilter := lockMap_filter h
      (fun inode other => decide (other ≠ owner ∨ inode ∉ inodes)) inode other byte
    simp only [Request.after, releaseInodes, Request.apply, LockMap.release]
    rw [hfilter]
    by_cases hout : other = owner ∧ inode ∈ inodes
    · rw [if_pos hout, if_neg (by simp [hout.1, hout.2])]
    · rw [if_neg hout, if_pos (by simp only [decide_eq_true_eq]; tauto)]

theorem reachable_canonical {sys : System} (h : Reachable System.step (· = System.initial) sys) :
    Fits sys.bank.locks sys.bank.waiters ∧ Canonical sys.bank.locks := by
  refine Reachable.invariant System.step
    (P := fun sys => Fits sys.bank.locks sys.bank.waiters ∧ Canonical sys.bank.locks) ?_ ?_ h
  · rintro s rfl
    exact ⟨initial_fits, canonical_nil⟩
  rintro s event ⟨hfits, hcanonical⟩
  refine ⟨step_fits s event hfits, ?_⟩
  cases event with
  | transact native request =>
    simp only [System.step, Request.run_spec hfits]
    exact (request.after_refines (entered_canonical hcanonical native)).1
  | notify index =>
    simp only [System.step]
    split <;> exact hcanonical

/-- From every reachable table, in every transaction: the table is canonical;
dead owners lose their bytes and then the request has its effect on the map;
`replace` sets exactly the wanted bytes of the wanted owner, keeps the table
canonical, and leaves everything when it returns an error, which is `ENOLCK`. -/
theorem lockTable_refines {sys : System}
    (h : Reachable System.step (· = System.initial) sys) (native : Native) :
    Canonical sys.bank.locks ∧
    Canonical (entered native sys.bank).locks ∧
    lockMap (entered native sys.bank).locks = (lockMap sys.bank.locks).bury native.alive ∧
    (∀ request : Request, lockMap (sys.step (.transact native request)).bank.locks =
        request.apply (request.done (entered native sys.bank))
          ((lockMap sys.bank.locks).bury native.alive)) ∧
    ∀ (s : State), s.locks = (entered native sys.bank).locks → ∀ (wanted : Record) (unlock : Bool),
        ((s.replace wanted unlock).1 = .ok () → Canonical (s.replace wanted unlock).2.locks ∧
          lockMap (s.replace wanted unlock).2.locks = (lockMap s.locks).assign wanted unlock) ∧
        (∀ e, (s.replace wanted unlock).1 = .error e →
          e = .ENOLCK ∧ (s.replace wanted unlock).2 = s) := by
  obtain ⟨hfits, hcanonical⟩ := reachable_canonical h
  have hentered := entered_canonical hcanonical native
  refine ⟨hcanonical, hentered, lockMap_entered hcanonical native, ?_, ?_⟩
  · intro request
    simp only [System.step, Request.run_spec hfits]
    rw [(request.after_refines hentered).2, lockMap_entered hcanonical native]
  · intro s hs wanted unlock
    rw [← hs] at hentered
    rcases replace_cases s wanted unlock with ⟨-, hreplace⟩ | ⟨-, hok, hlocks, -⟩
    · rw [hreplace]
      constructor
      · intro hbad
        cases hbad
      · intro e he
        cases he
        exact ⟨rfl, rfl⟩
    · rw [hlocks, hok]
      constructor
      · intro _
        exact ⟨merged_canonical hentered wanted unlock, lockMap_merged hentered wanted unlock⟩
      · intro e he
        cases he

/-- A lock on ten bytes, taken by one process. -/
def tenBytes : List Event :=
  [.transact ⟨fun _ => true, fun owner => some owner.pid, fun _ => true⟩
    (.set ⟨⟨0, 0, 7⟩, ⟨2, 1, 0⟩, none, ⟨0, 9, by decide, by decide⟩, some .write, false, ⟨2, 1⟩⟩
      true none)]

/-- Unlocking two bytes in the middle clears these bytes. -/
theorem lockTable_refines_split :
    let native : Native := ⟨fun _ => true, fun owner => some owner.pid, fun _ => true⟩
    let s := entered native (run System.step System.initial tenBytes).bank
    let wanted : Record := ⟨⟨0, 0, 7⟩, ⟨2, 1, 0⟩, ⟨3, 4, by decide, by decide⟩, .read⟩
    lockMap (s.replace wanted true).2.locks = (lockMap s.locks).assign wanted true := by
  intro native s wanted
  have hstart : Reachable System.step (· = System.initial) System.initial := .start rfl
  have hrefines := lockTable_refines (hstart.run System.step tenBytes) native
  exact ((hrefines.2.2.2.2 s rfl wanted true).1 (by decide)).2

end Kinakaze.RecordLock
