import Kinakaze.PidNamespace.Invariant
import Kinakaze.Library.Run

/-!
# Hierarchical PID numbers

Over every run of operations that `WithinOrder` permits, the numbers of the rows
are consistent: one in each namespace above the row's own, none elsewhere, none
shared, and listed from the outside in.
-/

namespace Kinakaze.PidNamespace

open Library

variable {t : Table} {ns id pid : Nat}

/-! ## A new child -/

theorem pidChildren_read (values : Memberships) : 1 ≤ values.read.pidChildren :=
  Nat.le_max_right ..

theorem parentMemberships_pos (t : Table) (parent : Nat) :
    1 ≤ (t.parentMemberships parent).pidChildren := by
  unfold Table.parentMemberships
  cases t.find parent with
  | none => exact Nat.le_refl _
  | some row => exact pidChildren_read _

variable {parent k : Nat} {t' : Table}

theorem registerChild_spec (h : t.registerChild parent pid = some t') :
    pid ≠ 0 ∧ t.find pid = none ∧ ∃ records row,
      t.chain (MAX_LEVELS - 1) (t.parentMemberships parent).pidChildren = some records ∧
        row.pid = pid ∧ row.zombie = false ∧
        row.ns = (t.parentMemberships parent).pidChildren ∧
        row.map = records.map (fun r => (r.id, r.next)) ∧
        t' = { rows := t.rows ++ [row]
               records := (records.foldl
                (fun t r => t.updateRecord r.id fun r => Record.take r pid) t).records } := by
  unfold Table.registerChild at h
  split at h
  · cases h
  rename_i hfree
  simp only [not_or, Nat.not_le] at hfree
  unfold Table.initializeChild at h
  simp only at h
  cases hchain : t.chain (MAX_LEVELS - 1) (t.parentMemberships parent).pidChildren with
  | none => simp [hchain] at h
  | some records =>
    simp only [hchain, Option.some.injEq] at h
    subst h
    refine ⟨hfree.1, by simpa using hfree.2.1, records,
      { pid
        zombie := false
        memberships := { t.parentMemberships parent with
          pid := (t.parentMemberships parent).pidChildren }
        map := records.map fun r => (r.id, r.next) }, rfl, rfl, rfl, ?_, rfl, ?_⟩
    · have := parentMemberships_pos t parent
      simp only [Row.ns, membership]
      omega
    · rw [rows_takeAll]

theorem Inv.child (h : Inv t) (horder : ∀ records,
      t.chain (MAX_LEVELS - 1) (t.parentMemberships parent).pidChildren = some records →
        ∀ r ∈ records.tail, r.next ≠ 1) (ht : t.registerChild parent pid = some t') : Inv t' := by
  obtain ⟨hpos, hfree, records, row, hchain, hpid, halive, hns, hmap, rfl⟩ := registerChild_spec ht
  obtain ⟨hlineage, hlength, hopen⟩ := chain_spec hchain
  have hnodup := hlineage.nodup
  have hrecords : ∀ ns, (records.foldl
      (fun t r => t.updateRecord r.id fun r => Record.take r pid) t).record ns =
      if ns ∈ records.map (·.id) then (t.record ns).map (Record.take · pid) else t.record ns :=
    fun ns => record_takeAll hnodup
  have hnew : ∀ q ∈ t.rows, q.pid ≠ pid := by
    intro q hq heq
    have := find_row h.pids hq (heq ▸ hpos)
    rw [heq, hfree] at this
    cases this
  have hentry : ∀ e ∈ row.map, ∃ r ∈ records, e = (r.id, r.next) ∧ t.record r.id = some r := by
    intro e he
    rw [hmap] at he
    obtain ⟨r, hr, rfl⟩ := List.mem_map.mp he
    exact ⟨r, hr, rfl, (hopen r hr).1⟩
  have hunshared : ∀ q ∈ t.rows, ∀ e ∈ row.map, e ∉ q.map := by
    intro q hq e he hshared
    obtain ⟨r, -, rfl, hrecord⟩ := hentry e he
    obtain ⟨-, r', hr', hlt⟩ := h.issued q hq _ hshared
    rw [hrecord] at hr'
    cases hr'
    exact Nat.lt_irrefl _ hlt
  have hfound : ∀ r ∈ records, t.record r.id = some r := fun r hr => (hopen r hr).1
  refine ⟨?_, ?_, ?_, ?_, ?_, ?_, ?_, ?_, ?_, ?_, ?_⟩
  · rw [ids_takeAll]
    exact h.ids
  · intro r' hr'
    obtain ⟨old, hold, hid, -⟩ := of_takeAll h.ids hnodup hfound hr'
    rw [← hid]
    exact h.large old hold
  · intro r' hr'
    obtain ⟨old, hold, -, ⟨-, rfl⟩ | rfl⟩ := of_takeAll h.ids hnodup hfound hr'
    · obtain ⟨hnext, hinit, -⟩ := h.counters old hold
      have htaken : (old.take pid).init ≠ 0 := by
        unfold Record.take
        simp only
        split
        · exact hpos
        · rename_i hne
          exact fun hzero => hne (hinit.mp hzero)
      refine ⟨Nat.le_succ_of_le hnext, ?_, fun _ => htaken⟩
      constructor
      · exact fun hzero => absurd hzero htaken
      · intro hone
        have : old.next + 1 = 1 := hone
        omega
    · exact h.counters r' hold
  · rw [List.map_append, List.nodup_append]
    refine ⟨h.pids, by simp, fun a ha b hb => ?_⟩
    obtain ⟨q, hq, rfl⟩ := List.mem_map.mp ha
    simp only [List.map_cons, List.map_nil, List.mem_singleton] at hb
    rw [hb, hpid]
    exact hnew q hq
  · intro q hq
    rcases List.mem_append.mp hq with hq | hq
    · exact h.positive q hq
    · rw [List.mem_singleton.mp hq, hpid]
      exact hpos
  · intro q hq
    change Lineage (records.foldl
      (fun t r => t.updateRecord r.id fun r => Record.take r pid) t).pidParent 1 _ _
    rw [pidParent_takeAll]
    rcases List.mem_append.mp hq with hq | hq
    · exact h.lineage q hq
    · rw [List.mem_singleton.mp hq, hns, hmap, List.map_map]
      exact hlineage
  · intro q hq
    rcases List.mem_append.mp hq with hq | hq
    · exact h.levels q hq
    · rw [List.mem_singleton.mp hq, hmap, List.length_map]
      exact Nat.le_trans hlength (Nat.sub_le ..)
  · intro q hq e he
    rcases List.mem_append.mp hq with hq | hq
    · obtain ⟨hone, r, hr, hlt⟩ := h.issued q hq e he
      obtain ⟨r', hr', -, hnext, -⟩ := kept_takeAll hnodup hr
      exact ⟨hone, r', hr', Nat.lt_of_lt_of_le hlt hnext⟩
    rw [List.mem_singleton.mp hq] at he
    obtain ⟨r, hr, rfl, hrecord⟩ := hentry e he
    refine ⟨(h.counters r (record_mem hrecord)).1, r.take pid, ?_, Nat.lt_succ_self _⟩
    change (records.foldl
      (fun t r => t.updateRecord r.id fun r => Record.take r pid) t).record r.id = _
    rw [hrecords, if_pos (List.mem_map_of_mem hr), hrecord]
    rfl
  · intro p hp q hq e hep heq
    rcases List.mem_append.mp hp with hp | hp <;> rcases List.mem_append.mp hq with hq | hq
    · exact h.distinct p hp q hq e hep heq
    · rw [List.mem_singleton.mp hq] at heq
      exact absurd hep (hunshared p hp e heq)
    · rw [List.mem_singleton.mp hp] at hep
      exact absurd heq (hunshared q hq e hep)
    · rw [List.mem_singleton.mp hp, List.mem_singleton.mp hq]
  · intro q hq ns he
    rcases List.mem_append.mp hq with hq | hq
    · obtain ⟨hown, r, hr, hinit⟩ := h.first q hq ns he
      obtain ⟨-, r', hr', hlt⟩ := h.issued q hq _ he
      obtain ⟨r'', hr'', -, -, hsame⟩ := kept_takeAll hnodup hr
      rw [hr] at hr'
      cases hr'
      exact ⟨hown, r'', hr'', (hsame (by simp only at hlt; omega)).trans hinit⟩
    rw [List.mem_singleton.mp hq] at he ⊢
    obtain ⟨r, hr, heq, hrecord⟩ := hentry _ he
    obtain ⟨rfl, hnext⟩ := Prod.mk.inj heq
    -- Only the namespace the child belongs to can be new.
    have hown : r.id = row.ns := by
      cases records with
      | nil => cases hr
      | cons head tail =>
        rcases List.mem_cons.mp hr with rfl | htail
        · rw [hns]
          generalize (t.parentMemberships parent).pidChildren = own at hlineage
          cases hlineage
          rfl
        · exact absurd hnext.symm (horder _ hchain r htail)
    refine ⟨hown, r.take pid, ?_, ?_⟩
    · change (records.foldl
        (fun t r => t.updateRecord r.id fun r => Record.take r pid) t).record r.id = _
      rw [hrecords, if_pos (List.mem_map_of_mem hr), hrecord]
      rfl
    · rw [hpid]
      exact if_pos hnext.symm
  · intro r' hr' hinit hdead
    obtain ⟨old, hold, hid, ⟨⟨r, hr, rfl⟩, rfl⟩ | rfl⟩ :=
      of_takeAll h.ids hnodup hfound hr'
    · by_cases hnext : r.next = 1
      · refine ⟨row, List.mem_append_right _ List.mem_cons_self, halive, ?_⟩
        rw [hmap]
        exact List.mem_map.mpr ⟨r, hr, congrArg (r.id, ·) hnext⟩
      · have hinit' : r.init ≠ 0 := fun hzero => hnext ((h.counters r hold).2.1.mp hzero)
        obtain ⟨q, hq, hzombie, hmem⟩ := h.attended r hold hinit' hdead
        exact ⟨q, List.mem_append_left _ hq, hzombie, hmem⟩
    · obtain ⟨q, hq, hzombie, hmem⟩ := h.attended r' hold hinit hdead
      exact ⟨q, List.mem_append_left _ hq, hzombie, hmem⟩

theorem Inv.empty : Inv Table.empty where
  ids := List.nodup_nil
  large := by simp [Table.empty]
  counters := by simp [Table.empty]
  pids := List.nodup_nil
  positive := by simp [Table.empty]
  lineage := by simp [Table.empty]
  levels := by simp [Table.empty]
  issued := by simp [Table.empty]
  distinct := by simp [Table.empty]
  first := by simp [Table.empty]
  attended := by simp [Table.empty]

theorem Inv.step (h : Inv t) {op : Op} (hop : WithinOrder t op) : Inv (step t op) := by
  cases op with
  | create id parent =>
    change Inv ((t.createPidNamespace id parent).toOption.getD t)
    cases ht : t.createPidNamespace id parent with
    | error e => exact h
    | ok t' => exact h.create ht
  | setMemberships pid values =>
    unfold PidNamespace.step
    simp only
    split
    · rename_i hjoin
      exact h.setMemberships hjoin
    · exact h
  | child parent pid =>
    change Inv ((t.registerChild parent pid).getD t)
    cases ht : t.registerChild parent pid with
    | none => exact h
    | some t' => exact h.child hop ht
  | enterNew pid =>
    unfold PidNamespace.step
    simp only
    split
    · rename_i hmay
      cases ht : t.enterNewPidNamespace pid with
      | error e => exact h
      | ok t' => exact h.enterNew hmay hop ht
    · exact h
  | exit pid => exact h.exit pid
  | release pid => exact h.release pid
  | discard id => exact h.discard id

/-! ## What the readers find -/

variable {row : Row}

theorem Inv.entries_eq (h : Inv t) (hrow : row ∈ t.rows) : row.entries = row.map :=
  List.take_of_length_le (h.levels row hrow)

theorem find?_of_nodup {l : List (Nat × Nat)} (hnodup : (l.map (·.1)).Nodup) {e : Nat × Nat}
    (he : e ∈ l) : l.find? (·.1 = e.1) = some e := by
  cases h : l.find? (·.1 = e.1) with
  | none => simpa using List.find?_eq_none.mp h e he
  | some other =>
    have hkey : other.1 = e.1 := by simpa using List.find?_some h
    rw [List.inj_on_of_nodup_map hnodup (List.mem_of_find?_eq_some h) he hkey]

theorem Inv.number_iff (h : Inv t) (hrow : row ∈ t.rows) (hns : ns ≠ 1) :
    row.number ns = some k ↔ (ns, k) ∈ row.map := by
  have hnodup := (h.lineage row hrow).nodup
  rw [Row.number, if_neg hns, h.entries_eq hrow]
  constructor
  · intro hnumber
    obtain ⟨e, he, rfl⟩ := Option.map_eq_some_iff.mp hnumber
    have hkey : e.1 = ns := by simpa using List.find?_some he
    rw [← hkey]
    exact List.mem_of_find?_eq_some he
  · intro hmem
    rw [find?_of_nodup hnodup hmem]
    rfl

theorem number_root (row : Row) : row.number 1 = some row.pid := if_pos rfl

theorem Inv.number_entry (h : Inv t) (hrow : row ∈ t.rows) {e : Nat × Nat}
    (he : e ∈ row.map) : row.number e.1 = some e.2 := by
  have hne := (h.lineage row hrow).ne_root (List.mem_map_of_mem he)
  exact (h.number_iff hrow hne).mpr he

theorem Inv.number_pos (h : Inv t) (hrow : row ∈ t.rows)
    (hnumber : row.number ns = some k) : k ≠ 0 := by
  by_cases hns : ns = 1
  · subst hns
    rw [number_root] at hnumber
    cases hnumber
    exact h.positive row hrow
  · have := (h.issued row hrow _ ((h.number_iff hrow hns).mp hnumber)).1
    omega

theorem Inv.number_unique (h : Inv t) {p q : Row} (hp : p ∈ t.rows) (hq : q ∈ t.rows)
    (hpk : p.number ns = some k) (hqk : q.number ns = some k) : p.pid = q.pid := by
  by_cases hns : ns = 1
  · subst hns
    rw [number_root] at hpk hqk
    cases hpk
    exact (Option.some.inj hqk).symm
  · exact h.distinct p hp q hq _ ((h.number_iff hp hns).mp hpk) ((h.number_iff hq hns).mp hqk)

theorem Inv.resolveIn_number (h : Inv t) (hrow : row ∈ t.rows) (hnumber : row.number ns = some k) :
    t.resolveIn k ns = some row.pid := by
  rw [Table.resolveIn, if_neg (h.number_pos hrow hnumber)]
  cases hfind : t.rows.find? fun other => other.number ns = some k with
  | none => simpa [hnumber] using List.find?_eq_none.mp hfind row hrow
  | some other =>
    have hother : other.number ns = some k := by simpa using List.find?_some hfind
    rw [Option.map_some, h.number_unique (List.mem_of_find?_eq_some hfind) hrow hother hnumber]

theorem Inv.resolveFrom_visibleFrom (h : Inv t) {viewer : Nat}
    (hvisible : t.visibleFrom pid viewer = some k) : t.resolveFrom k viewer = some pid := by
  obtain ⟨row, hrow, hvisible⟩ := Option.bind_eq_some_iff.mp hvisible
  obtain ⟨watcher, hwatcher, hnumber⟩ := Option.bind_eq_some_iff.mp hvisible
  have hmem := find_mem hrow
  have hpid := find_pid hrow
  have hpositive := h.number_pos hmem hnumber
  have hresolve := h.resolveIn_number hmem hnumber
  rw [Table.resolveIn, if_neg hpositive, hpid] at hresolve
  rw [Table.resolveFrom, if_neg hpositive]
  simp only [hwatcher]
  by_cases hroot : watcher.ns = 1
  · rw [hroot, number_root] at hnumber
    cases hnumber
    rw [if_pos hroot, hpid, hrow]
    rfl
  · rw [if_neg hroot]
    exact hresolve

/-! ### The order of the columns -/

/-- The namespaces from `ns` down to the innermost of a lineage. -/
def namespacesDown (lineage : List Nat) (ns : Nat) : List Nat :=
  (lineage.takeWhile (· ≠ ns) ++ [ns]).reverse

theorem namespaceDepth_of_lineage {a fuel : Nat} {path : List Nat}
    (h : Lineage t.pidParent 1 a path) (hfuel : path.length < fuel) :
    t.namespaceDepth fuel a = some path.length := by
  induction h generalizing fuel with
  | root =>
    obtain ⟨fuel, rfl⟩ := Nat.exists_eq_succ_of_ne_zero (Nat.ne_of_gt hfuel)
    simp [Table.namespaceDepth, Table.pidParent]
  | @step a b path hne hlink _ ih =>
    rw [List.length_cons] at hfuel
    obtain ⟨fuel, rfl⟩ := Nat.exists_eq_succ_of_ne_zero (Nat.ne_of_gt (Nat.zero_lt_of_lt hfuel))
    rw [Table.namespaceDepth, hlink]
    simp only
    rw [ih (Nat.lt_of_succ_lt_succ hfuel)]
    rfl

variable {front back : List Nat}

theorem takeWhile_ne (h : ns ∉ front) : (front ++ ns :: back).takeWhile (· ≠ ns) = front := by
  rw [List.takeWhile_append_of_pos]
  · simp
  · intro a ha
    have hne : a ≠ ns := fun heq => h (heq ▸ ha)
    simpa using hne

theorem takeWhile_all {l : List Nat} (h : ns ∉ l) : l.takeWhile (· ≠ ns) = l := by
  induction l with
  | nil => rfl
  | cons a l ih =>
    simp only [List.mem_cons, not_or] at h
    rw [List.takeWhile_cons_of_pos (by simpa using fun heq => h.1 heq.symm), ih h.2]

theorem lineage_from {a b : Nat} (h : Lineage t.pidParent 1 a (front ++ b :: back)) :
    Lineage t.pidParent 1 b (b :: back) := by
  induction front generalizing a with
  | nil =>
    rw [List.nil_append] at h
    cases h with
    | step hne hlink hrest => exact .step hne hlink hrest
  | cons c front ih =>
    cases h with
    | step _ _ hrest => exact ih hrest

theorem Inv.visiblePidNumbersIn (h : Inv t) (hrow : row ∈ t.rows)
    (hns : ns = 1 ∨ ns ∈ row.map.map (·.1)) {fuel : Nat} (hfuel : MAX_LEVELS < fuel) :
    (t.visiblePidNumbersIn fuel row.pid ns).map (·.map some) =
      some ((namespacesDown (row.map.map (·.1)) ns).map row.number) := by
  have hfind := find_row h.pids hrow (h.positive row hrow)
  have hlineage := h.lineage row hrow
  have hnodup := hlineage.nodup
  have hnumbers : ∀ part : List (Nat × Nat), part ⊆ row.map →
      (part.map (·.1)).map row.number = (part.map (·.2)).map some := by
    intro part hpart
    rw [List.map_map, List.map_map]
    exact List.map_congr_left fun e he => h.number_entry hrow (hpart he)
  have hall : t.pidNumbers row.pid = row.pid :: row.map.reverse.map (·.2) := by
    rw [Table.pidNumbers, hfind]
    simp only [h.entries_eq hrow]
  unfold Table.visiblePidNumbersIn Table.visibleIn
  rw [hfind, Option.bind_some]
  by_cases hroot : ns = 1
  · subst hroot
    have houtside : 1 ∉ row.map.map (·.1) := fun hmem => hlineage.ne_root hmem rfl
    have htake : (row.map.map (·.1)).takeWhile (· ≠ 1) = row.map.map (·.1) :=
      takeWhile_all houtside
    rw [number_root]
    simp only [if_true, Option.map_some, hall, namespacesDown, htake, List.reverse_append,
      List.reverse_singleton, List.singleton_append, List.map_cons, number_root]
    rw [← List.map_reverse, hnumbers _ (by simp)]
  have hmem : ns ∈ row.map.map (·.1) := hns.resolve_left hroot
  obtain ⟨e, he, rfl⟩ := List.mem_map.mp hmem
  obtain ⟨inner, outer, hsplit⟩ := List.append_of_mem he
  rw [h.number_entry hrow he]
  simp only [hroot, if_false]
  have hkeys : row.map.map (·.1) = inner.map (·.1) ++ e.1 :: outer.map (·.1) := by
    rw [hsplit, List.map_append, List.map_cons]
  have hinner : e.1 ∉ inner.map (·.1) := by
    rw [hkeys] at hnodup
    intro hmem'
    exact (List.nodup_append.mp hnodup).2.2 _ hmem' _ List.mem_cons_self rfl
  have hlevels := h.levels row hrow
  rw [hkeys] at hlineage
  have hlong : (e.1 :: outer.map (·.1)).length < fuel := by
    have hlength := congrArg List.length hsplit
    simp only [List.length_append, List.length_cons, List.length_map] at hlength ⊢
    omega
  have hdepth := namespaceDepth_of_lineage (lineage_from hlineage) hlong
  have hdrop : (t.pidNumbers row.pid).drop (e.1 :: outer.map (·.1)).length =
      e.2 :: inner.reverse.map (·.2) := by
    rw [hall, hsplit, List.length_cons, List.length_map, List.drop_succ_cons, List.reverse_append,
      List.reverse_cons, List.append_assoc, List.map_append]
    have hlength : outer.length = (outer.reverse.map (·.2)).length := by simp
    rw [hlength, List.drop_left]
    simp
  have hshort : (e.1 :: outer.map (·.1)).length ≤ (t.pidNumbers row.pid).length := by
    rw [hall, hsplit]
    simp
  rw [hdepth]
  simp only [Option.map_some, hshort, if_true, hdrop]
  rw [namespacesDown, hkeys, takeWhile_ne hinner, List.reverse_append, List.reverse_singleton,
    List.singleton_append, List.map_cons, List.map_cons, h.number_entry hrow he,
    ← List.map_reverse, hnumbers _ (by rw [hsplit]; simp)]

/-! ## Over every run -/

/-- What the numbers of a table are to be. -/
structure Consistent (t : Table) : Prop where
  numbered : ∀ row ∈ t.rows, ∃ lineage, Lineage t.pidParent 1 row.ns lineage ∧
    (∀ ns, (row.number ns).isSome ↔ ns = 1 ∨ ns ∈ lineage) ∧
    (row.map.map (·.1)).Nodup ∧
    ∀ ns, ns = 1 ∨ ns ∈ lineage → ∀ fuel, MAX_LEVELS < fuel →
      (t.visiblePidNumbersIn fuel row.pid ns).map (·.map some) =
        some ((namespacesDown lineage ns).map row.number)
  unshared : ∀ p ∈ t.rows, ∀ q ∈ t.rows, ∀ ns k, p.number ns = some k → q.number ns = some k → p = q
  resolved : ∀ pid viewer k, t.visibleFrom pid viewer = some k → t.resolveFrom k viewer = some pid
  first : ∀ row ∈ t.rows, ∀ ns, ns ≠ 1 → row.number ns = some 1 →
    ∃ r, t.record ns = some r ∧ r.init = row.pid
  bounded : ∀ row ∈ t.rows, row.map.length ≤ MAX_LEVELS

theorem Inv.consistent (h : Inv t) : Consistent t where
  numbered row hrow := by
    refine ⟨row.map.map (·.1), h.lineage row hrow, fun ns => ?_, (h.lineage row hrow).nodup,
      fun ns hns fuel hfuel => h.visiblePidNumbersIn hrow hns hfuel⟩
    by_cases hroot : ns = 1
    · subst hroot
      simp [number_root]
    constructor
    · intro hsome
      obtain ⟨k, hk⟩ := Option.isSome_iff_exists.mp hsome
      exact .inr (List.mem_map_of_mem ((h.number_iff hrow hroot).mp hk))
    · intro hmem
      obtain ⟨e, he, rfl⟩ := List.mem_map.mp (hmem.resolve_left hroot)
      rw [h.number_entry hrow he]
      rfl
  unshared p hp q hq ns k hpk hqk := row_unique h.pids hp hq (h.number_unique hp hq hpk hqk)
  resolved pid viewer k hvisible := h.resolveFrom_visibleFrom hvisible
  first row hrow ns hns hone := (h.first row hrow ns ((h.number_iff hrow hns).mp hone)).2
  bounded := h.levels

/-- Every number that a step hands out in a namespace is the first, and then its holder is the
init, or the first process of the namespace has not ended. -/
def EntersLawfully (t t' : Table) : Prop :=
  ∀ q ∈ t'.rows, ∀ ns k, ns ≠ 1 → q.number ns = some k →
    (∀ p ∈ t.rows, p.pid = q.pid → p.number ns ≠ some k) →
    (k = 1 ∧ (∃ r, t.record ns = some r ∧ r.init = 0) ∧
        ∃ r, t'.record ns = some r ∧ r.init = q.pid) ∨
      (k ≠ 1 ∧ ∃ p ∈ t.rows, p.zombie = false ∧ p.number ns = some 1)

theorem EntersLawfully.of_same
    (h : ∀ q ∈ t'.rows, ∃ p ∈ t.rows, q.pid = p.pid ∧ q.map = p.map) : EntersLawfully t t' := by
  intro q hq ns k hns hnumber hnew
  obtain ⟨p, hp, hpid, hmap⟩ := h q hq
  refine absurd ?_ (hnew p hp hpid.symm)
  rw [← hnumber, Row.number, Row.number, if_neg hns, if_neg hns, Row.entries, Row.entries, hmap]

theorem updateRow_same {f : Row → Row} (hpid : ∀ row, (f row).pid = row.pid)
    (hmap : ∀ row, (f row).map = row.map) :
    ∀ q ∈ (t.updateRow id f).rows, ∃ p ∈ t.rows, q.pid = p.pid ∧ q.map = p.map := by
  intro q hq
  obtain ⟨p, hp, ⟨-, rfl⟩ | ⟨-, rfl⟩⟩ := mem_updateRow hq
  · exact ⟨p, hp, hpid p, hmap p⟩
  · exact ⟨q, hp, rfl, rfl⟩

theorem Inv.child_enters (h : Inv t)
    (ht : t.registerChild parent pid = some t') (h' : Inv t') : EntersLawfully t t' := by
  obtain ⟨-, -, records, row, hchain, hpid, -, -, hmap, rfl⟩ := registerChild_spec ht
  intro q hq ns k hns hnumber hnew
  have hentry := (h'.number_iff hq hns).mp hnumber
  rcases List.mem_append.mp hq with hold | hrow
  · exact absurd ((h.number_iff hold hns).mpr hentry) (hnew q hold rfl)
  obtain rfl := List.mem_singleton.mp hrow
  have hentry' := hentry
  rw [hmap] at hentry'
  obtain ⟨r, hr, heq⟩ := List.mem_map.mp hentry'
  obtain ⟨rfl, rfl⟩ := Prod.mk.inj heq
  obtain ⟨hrecord, hdead, -⟩ := (chain_spec hchain).2.2 r hr
  have hcounters := h.counters r (record_mem hrecord)
  by_cases hone : r.next = 1
  · refine .inl ⟨hone, ⟨r, hrecord, hcounters.2.1.mpr hone⟩, ?_⟩
    rw [hone] at hentry
    exact (h'.first q hq r.id hentry).2
  · have hinit : r.init ≠ 0 := fun hzero => hone (hcounters.2.1.mp hzero)
    obtain ⟨p, hp, halive, hmem⟩ := h.attended r (record_mem hrecord) hinit hdead
    exact .inr ⟨hone, p, hp, halive, (h.number_iff hp hns).mpr hmem⟩

theorem Inv.enterNew_enters (h : Inv t)
    (ht : t.enterNewPidNamespace pid = .ok t') (h' : Inv t') : EntersLawfully t t' := by
  intro q hq ns k hns hnumber hnew
  have hentry := (h'.number_iff hq hns).mp hnumber
  unfold Table.enterNewPidNamespace at ht
  cases hfind : t.find pid with
  | none => simp [hfind] at ht
  | some row =>
    simp only [hfind] at ht
    cases hrecord : t.record row.childNs with
    | none => simp [hrecord] at ht
    | some r =>
      simp only [hrecord] at ht
      split at ht
      · cases ht
      rename_i hopen
      simp only [not_or, not_not] at hopen
      cases ht
      obtain ⟨old, hold, ⟨hown, rfl⟩ | ⟨-, rfl⟩⟩ := mem_updateRow hq
      · have heq := row_unique h.pids hold (find_mem hfind) (hown.trans (find_pid hfind).symm)
        subst heq
        rcases List.mem_append.mp hentry with hkept | hadded
        · exact absurd ((h.number_iff hold hns).mpr hkept) (hnew old hold rfl)
        · obtain ⟨rfl, rfl⟩ := Prod.mk.inj (List.mem_singleton.mp hadded)
          exact .inl ⟨rfl, ⟨r, hrecord, hopen.2.1⟩, (h'.first _ hq _ hentry).2⟩
      · exact absurd ((h.number_iff hold hns).mpr hentry) (hnew q hold rfl)

theorem Inv.step_enters (h : Inv t) {op : Op} (hop : WithinOrder t op) :
    EntersLawfully t (PidNamespace.step t op) := by
  have h' := h.step hop
  have hself : EntersLawfully t t := .of_same fun q hq => ⟨q, hq, rfl, rfl⟩
  cases op with
  | create id parent =>
    change EntersLawfully t ((t.createPidNamespace id parent).toOption.getD t)
    cases ht : t.createPidNamespace id parent with
    | error e => exact hself
    | ok t' =>
      have hrows : t'.rows = t.rows := by
        unfold Table.createPidNamespace at ht
        split at ht
        · cases ht
        split at ht
        · cases ht
        split at ht
        · cases ht
        split at ht
        · cases ht
        split at ht <;> cases ht
        rfl
      exact .of_same fun q hq => ⟨q, hrows ▸ hq, rfl, rfl⟩
  | setMemberships pid values =>
    change EntersLawfully t (if mayJoin t pid values then t.setMemberships pid values else t)
    split
    · unfold Table.setMemberships
      split
      · exact hself
      · exact .of_same (updateRow_same (fun _ => rfl) fun _ => rfl)
    · exact hself
  | child parent pid =>
    change Inv ((t.registerChild parent pid).getD t) at h'
    change EntersLawfully t ((t.registerChild parent pid).getD t)
    cases ht : t.registerChild parent pid with
    | none => exact hself
    | some t' =>
      rw [ht] at h'
      exact h.child_enters ht h'
  | enterNew pid =>
    change Inv (if mayEnter t pid then (t.enterNewPidNamespace pid).toOption.getD t else t) at h'
    change EntersLawfully t
      (if mayEnter t pid then (t.enterNewPidNamespace pid).toOption.getD t else t)
    split
    · rename_i hmay
      rw [if_pos hmay] at h'
      cases ht : t.enterNewPidNamespace pid with
      | error e => exact hself
      | ok t' =>
        rw [ht] at h'
        exact h.enterNew_enters ht h'
    · exact hself
  | exit pid =>
    change EntersLawfully t (t.exit pid)
    unfold Table.exit
    split
    · exact hself
    rename_i row _
    have hrows : (t.exiting row).rows = t.rows := by
      unfold Table.exiting
      split <;> rfl
    refine .of_same fun q hq => ?_
    obtain ⟨p, hp, hsame⟩ := updateRow_same (f := fun row => { row with zombie := true })
      (fun _ => rfl) (fun _ => rfl) q hq
    exact ⟨p, hrows ▸ hp, hsame⟩
  | release pid => exact .of_same fun q hq => ⟨q, List.mem_of_mem_filter hq, rfl, rfl⟩
  | discard id =>
    change EntersLawfully t (t.discardEmptyPidNamespace id)
    unfold Table.discardEmptyPidNamespace
    split
    · exact hself
    · split
      · exact .of_same fun q hq => ⟨q, hq, rfl, rfl⟩
      · exact hself

/-- While no process outside the root enters a new namespace, and no child is the first process
of two namespaces, the numbers are consistent in every state, and nobody enters a namespace
whose first process has ended. -/
theorem pid_numbers_consistent (ops : List Op) (hops : EveryStep step WithinOrder Table.empty ops) :
    EveryState step Consistent Table.empty ops ∧
      EveryStep step (fun t op => EntersLawfully t (step t op)) Table.empty ops := by
  have hstates : EveryState step Inv Table.empty ops :=
    .of_preserved (fun t op h hop => h.step hop) Inv.empty hops
  refine ⟨hstates.mono fun t h => h.consistent, ?_⟩
  generalize Table.empty = start at hops hstates
  induction ops generalizing start with
  | nil => trivial
  | cons op rest ih =>
    exact ⟨hstates.1.step_enters hops.1, ih _ hops.2 hstates.2⟩

/-- `resolve_in` and `visible_in` are inverse to each other. -/
def Table.Translates (t : Table) : Prop :=
  ∀ ns k pid, t.resolveIn k ns = some pid ↔ t.visibleIn pid ns = some k

/-- Process 1 has its children in namespace 5. -/
def firstContainer : List Op :=
  [.child 0 1, .create 5 1, .setMemberships 1 ⟨1, 1, 1, 1, 1, 5⟩, .child 1 2]

theorem pid_numbers_consistent_firstContainer :
    EveryState step Consistent Table.empty firstContainer ∧
      EveryStep step (fun t op => EntersLawfully t (step t op)) Table.empty firstContainer := by
  refine pid_numbers_consistent firstContainer ⟨?_, trivial, trivial, ?_, trivial⟩
  · intro records hrecords
    cases hrecords
    simp
  intro records hrecords
  have hchain : (run step Table.empty (firstContainer.take 3)).chain (MAX_LEVELS - 1) 5 =
      some [⟨5, 1, 1, 0, false, 1⟩] := by decide
  change (run step Table.empty (firstContainer.take 3)).chain (MAX_LEVELS - 1) 5 = some records
    at hrecords
  rw [hchain] at hrecords
  cases hrecords
  simp

/-- Process 3, the second one of namespace 5, enters the new namespace 6 below it. -/
def entersFromInside : List Op :=
  firstContainer ++ [.child 1 3, .create 6 5, .setMemberships 3 ⟨1, 1, 1, 1, 5, 6⟩, .enterNew 3]

/-- Process 2 is the first one of 6 and of 5 above it, and ends; process 3 is then put into 5. -/
def firstOfTwo : List Op :=
  [.child 0 1, .create 5 1, .create 6 5, .setMemberships 1 ⟨1, 1, 1, 1, 1, 6⟩, .child 1 2, .exit 2,
    .setMemberships 1 ⟨1, 1, 1, 1, 1, 5⟩]

/-- The columns of process 3 read `3 1 2`, and a process enters namespace 5 after its init
died. -/
theorem pid_numbers_inconsistent : ¬Consistent (run step Table.empty entersFromInside) ∧
      ¬EntersLawfully (run step Table.empty firstOfTwo)
        (step (run step Table.empty firstOfTwo) (.child 1 3)) := by
  constructor
  · intro h
    let row : Row := ⟨3, false, ⟨1, 1, 1, 1, 6, 6⟩, [(5, 2), (6, 1)]⟩
    obtain ⟨lineage, hlineage, -, -, hcolumns⟩ := h.numbered row (by decide)
    have hsix : Lineage (run step Table.empty entersFromInside).pidParent 1 row.ns [6, 5] :=
      .step (by decide) (by decide : _ = some 5) (.step (by decide) (by decide) .root)
    obtain rfl := hlineage.unique hsix
    exact absurd (hcolumns 1 (.inl rfl) 34 (by decide)) (by decide)
  · intro h
    have hcases := h ⟨3, false, ⟨1, 1, 1, 1, 5, 5⟩, [(5, 2)]⟩ (by decide) 5 2 (by decide) (by decide)
      (by decide)
    rcases hcases with ⟨hone, -⟩ | ⟨-, hfirst⟩
    · exact absurd hone (by decide)
    · exact absurd hfirst (by decide)

end Kinakaze.PidNamespace
