import Kinakaze.Library.Lineage
import Kinakaze.PidNamespace.Table

/-!
# What the table keeps

The numbers of a row belong to the namespaces on the lineage of its own one,
innermost first; each was issued once; and a namespace whose first process is
gone is dead.  Two operations can break this, and `WithinOrder` leaves them out:
a process outside the root namespace that enters a new one, and a child that is
the first process of two namespaces at once.
-/

namespace Kinakaze.PidNamespace

open Library

variable {t : Table} {ns id pid : Nat}

/-! ## Records and rows -/

variable {r : Record}

theorem record_mem (h : t.record id = some r) : r ∈ t.records :=
  List.mem_of_find?_eq_some h

theorem record_id (h : t.record id = some r) : r.id = id := by
  simpa using List.find?_some h

variable {f : Record → Record}

theorem record_updateRecord (hf : ∀ r, (f r).id = r.id) :
    (t.updateRecord id f).record ns = if ns = id then (t.record ns).map f else t.record ns := by
  unfold Table.record Table.updateRecord
  induction t.records with
  | nil => simp
  | cons r rest ih =>
    have hid : (if r.id = id then f r else r).id = r.id := by
      split
      · exact hf r
      · rfl
    simp only [List.map_cons, List.find?_cons, hid]
    by_cases hns : r.id = ns
    · by_cases hother : ns = id
      · simp [hns, hother]
      · have : ¬r.id = id := fun heq => hother (hns ▸ heq)
        simp [hns, hother]
    · simp only [hns, decide_false]
      exact ih

theorem pidParent_updateRecord (hf : ∀ r, (f r).id = r.id) (hparent : ∀ r, (f r).parent = r.parent)
    :
    (t.updateRecord id f).pidParent = t.pidParent := by
  funext ns
  unfold Table.pidParent
  rw [record_updateRecord hf]
  split
  · rfl
  · split
    · simp [hparent, Function.comp_def]
    · rfl

theorem updateRecord_ids (hf : ∀ r, (f r).id = r.id) :
    (t.updateRecord id f).records.map (·.id) = t.records.map (·.id) := by
  simp only [Table.updateRecord, List.map_map]
  refine List.map_congr_left fun r _ => ?_
  simp only [Function.comp_apply]
  split
  · exact hf r
  · rfl

theorem mem_updateRecord (h : r ∈ (t.updateRecord id f).records) :
    ∃ old ∈ t.records, (old.id = id ∧ r = f old) ∨ (old.id ≠ id ∧ r = old) := by
  obtain ⟨old, hold, rfl⟩ := List.mem_map.mp h
  refine ⟨old, hold, ?_⟩
  by_cases hid : old.id = id
  · exact .inl ⟨hid, if_pos hid⟩
  · exact .inr ⟨hid, if_neg hid⟩

variable {row : Row}

theorem find_mem (h : t.find pid = some row) : row ∈ t.rows := by
  unfold Table.find at h
  split at h
  · cases h
  · exact List.mem_of_find?_eq_some h

theorem find_pid (h : t.find pid = some row) : row.pid = pid := by
  unfold Table.find at h
  split at h
  · cases h
  · simpa using List.find?_some h

theorem row_unique (hpids : (t.rows.map (·.pid)).Nodup) {p q : Row} (hp : p ∈ t.rows)
    (hq : q ∈ t.rows) (h : p.pid = q.pid) : p = q :=
  List.inj_on_of_nodup_map hpids hp hq h

theorem find_row (hpids : (t.rows.map (·.pid)).Nodup) (hrow : row ∈ t.rows)
    (hpos : row.pid ≠ 0) : t.find row.pid = some row := by
  unfold Table.find
  rw [if_neg hpos]
  cases h : t.rows.find? (·.pid = row.pid) with
  | none => simpa using List.find?_eq_none.mp h row hrow
  | some other =>
    have hpid : other.pid = row.pid := by simpa using List.find?_some h
    rw [row_unique hpids (List.mem_of_find?_eq_some h) hrow hpid]

theorem mem_updateRow {f : Row → Row} (h : row ∈ (t.updateRow pid f).rows) :
    ∃ old ∈ t.rows, (old.pid = pid ∧ row = f old) ∨ (old.pid ≠ pid ∧ row = old) := by
  obtain ⟨old, hold, rfl⟩ := List.mem_map.mp h
  refine ⟨old, hold, ?_⟩
  by_cases hpid : old.pid = pid
  · exact .inl ⟨hpid, if_pos hpid⟩
  · exact .inr ⟨hpid, if_neg hpid⟩

theorem updateRow_pids {f : Row → Row} (hf : ∀ row, (f row).pid = row.pid) :
    (t.updateRow pid f).rows.map (·.pid) = t.rows.map (·.pid) := by
  simp only [Table.updateRow, List.map_map]
  refine List.map_congr_left fun row _ => ?_
  simp only [Function.comp_apply]
  split
  · exact hf row
  · rfl

/-! ## Chains -/

theorem pidParent_of_record (hns : ns ≠ 1) (h : t.record ns = some r) :
    t.pidParent ns = some r.parent := by
  simp [Table.pidParent, hns, h]

variable {records : List Record}

theorem chain_spec {limit : Nat} (h : t.chain limit ns = some records) :
    Lineage t.pidParent 1 ns (records.map (·.id)) ∧ records.length ≤ limit ∧
      ∀ r ∈ records, t.record r.id = some r ∧ r.dead = false ∧ r.next < I32_MAX := by
  induction limit generalizing ns records with
  | zero =>
    rw [Table.chain] at h
    split at h
    · rename_i hns
      cases h
      exact ⟨hns ▸ .root, Nat.le_refl _, by simp⟩
    · cases h
  | succ limit ih =>
    rw [Table.chain] at h
    split at h
    · rename_i hns
      cases h
      exact ⟨hns ▸ .root, Nat.zero_le _, by simp⟩
    rename_i hns
    cases hrecord : t.record ns with
    | none => simp [hrecord] at h
    | some r =>
      simp only [hrecord] at h
      split at h
      · cases h
      rename_i hopen
      obtain ⟨rest, hrest, rfl⟩ := Option.map_eq_some_iff.mp h
      obtain ⟨hlineage, hlength, hall⟩ := ih hrest
      have hid := record_id hrecord
      refine ⟨?_, Nat.succ_le_succ hlength, ?_⟩
      · rw [List.map_cons, hid]
        exact .step hns (pidParent_of_record hns hrecord) hlineage
      · rw [List.forall_mem_cons]
        refine ⟨⟨hid.symm ▸ hrecord, ?_, ?_⟩, hall⟩
        · simpa using fun hdead => hopen (.inl hdead)
        · exact Nat.lt_of_not_le fun hle => hopen (.inr hle)

theorem record_takeAll (hnodup : (records.map (·.id)).Nodup) :
    (records.foldl (fun t r => t.updateRecord r.id fun r => Record.take r pid) t).record ns =
      if ns ∈ records.map (·.id) then (t.record ns).map (Record.take · pid) else t.record ns := by
  induction records generalizing t with
  | nil => simp
  | cons r rest ih =>
    simp only [List.map_cons, List.nodup_cons] at hnodup
    rw [List.foldl_cons, ih hnodup.2, record_updateRecord (f := fun r => Record.take r pid)
      fun _ => rfl]
    by_cases hns : ns = r.id
    · subst hns
      simp [hnodup.1]
    · simp [hns]

theorem rows_takeAll (records : List Record) :
    (records.foldl (fun t r => t.updateRecord r.id fun r => Record.take r pid) t).rows = t.rows := by
  induction records generalizing t with
  | nil => rfl
  | cons r rest ih => rw [List.foldl_cons, ih]; rfl

theorem ids_takeAll (records : List Record) :
    (records.foldl (fun t r => t.updateRecord r.id fun r => Record.take r pid) t).records.map (·.id)
      = t.records.map (·.id) := by
  induction records generalizing t with
  | nil => rfl
  | cons r rest ih =>
    rw [List.foldl_cons, ih]
    exact updateRecord_ids (f := fun r => Record.take r pid) fun _ => rfl

theorem pidParent_takeAll (records : List Record) :
    (records.foldl (fun t r => t.updateRecord r.id fun r => Record.take r pid) t).pidParent =
      t.pidParent := by
  induction records generalizing t with
  | nil => rfl
  | cons r rest ih =>
    rw [List.foldl_cons, ih]
    exact pidParent_updateRecord (fun _ => rfl) fun _ => rfl

theorem kept_takeAll (hnodup : (records.map (·.id)).Nodup)
    (hr : t.record ns = some r) : ∃ r', (records.foldl
      (fun t r => t.updateRecord r.id fun r => Record.take r pid) t).record ns = some r' ∧
      r'.parent = r.parent ∧ r.next ≤ r'.next ∧ (r.next ≠ 1 → r'.init = r.init) := by
  rw [record_takeAll hnodup, hr]
  by_cases hmem : ns ∈ records.map (·.id)
  · rw [if_pos hmem]
    exact ⟨r.take pid, rfl, rfl, Nat.le_succ _, fun hnext => if_neg hnext⟩
  · rw [if_neg hmem]
    exact ⟨r, rfl, rfl, Nat.le_refl _, fun _ => rfl⟩

/-! ## The invariant -/

structure Inv (t : Table) : Prop where
  ids : (t.records.map (·.id)).Nodup
  large : ∀ r ∈ t.records, 2 ≤ r.id
  counters : ∀ r ∈ t.records, 1 ≤ r.next ∧ (r.init = 0 ↔ r.next = 1) ∧ (r.dead = true → r.init ≠ 0)
  pids : (t.rows.map (·.pid)).Nodup
  positive : ∀ row ∈ t.rows, row.pid ≠ 0
  lineage : ∀ row ∈ t.rows, Lineage t.pidParent 1 row.ns (row.map.map (·.1))
  levels : ∀ row ∈ t.rows, row.map.length ≤ MAX_LEVELS
  issued : ∀ row ∈ t.rows, ∀ e ∈ row.map, 1 ≤ e.2 ∧ ∃ r, t.record e.1 = some r ∧ e.2 < r.next
  distinct : ∀ p ∈ t.rows, ∀ q ∈ t.rows, ∀ e ∈ p.map, e ∈ q.map → p.pid = q.pid
  first : ∀ row ∈ t.rows, ∀ ns, (ns, 1) ∈ row.map →
    ns = row.ns ∧ ∃ r, t.record ns = some r ∧ r.init = row.pid
  attended : ∀ r ∈ t.records, r.init ≠ 0 → r.dead = false →
    ∃ row ∈ t.rows, row.zombie = false ∧ (r.id, 1) ∈ row.map

theorem record_of_mem (hids : (t.records.map (·.id)).Nodup) (hr : r ∈ t.records) :
    t.record r.id = some r := by
  unfold Table.record
  cases h : t.records.find? (·.id = r.id) with
  | none => simpa using List.find?_eq_none.mp h r hr
  | some other =>
    have hid : other.id = r.id := by simpa using List.find?_some h
    rw [List.inj_on_of_nodup_map hids (List.mem_of_find?_eq_some h) hr hid]

theorem of_takeAll (hids : (t.records.map (·.id)).Nodup) (hnodup : (records.map (·.id)).Nodup)
    (hfound : ∀ r ∈ records, t.record r.id = some r) {r' : Record} (hr' : r' ∈ (records.foldl
      (fun t r => t.updateRecord r.id fun r => Record.take r pid) t).records) :
    ∃ old ∈ t.records, old.id = r'.id ∧
      ((∃ r ∈ records, r = old) ∧ r' = old.take pid ∨ r' = old) := by
  have hread := record_of_mem (by rw [ids_takeAll]; exact hids) hr'
  rw [record_takeAll hnodup] at hread
  split at hread
  · next hmem =>
    obtain ⟨old, hold, rfl⟩ := Option.map_eq_some_iff.mp hread
    obtain ⟨r, hr, hid⟩ := List.mem_map.mp hmem
    have hrecord := hfound r hr
    rw [hid, hold] at hrecord
    cases hrecord
    exact ⟨old, record_mem hold, rfl, .inl ⟨⟨old, hr, rfl⟩, rfl⟩⟩
  · exact ⟨r', record_mem hread, rfl, .inr rfl⟩

theorem Inv.init_ne_zero (h : Inv t) (hrow : row ∈ t.rows) {e : Nat × Nat}
    (he : e ∈ row.map) (hr : t.record e.1 = some r) : r.init ≠ 0 := by
  obtain ⟨hone, r', hr', hlt⟩ := h.issued row hrow e he
  rw [hr] at hr'
  cases hr'
  have hcounters := (h.counters r (record_mem hr)).2.1
  intro hzero
  have := hcounters.mp hzero
  omega

variable {t' : Table}

theorem Inv.lineage_congr (h : Inv t) (hrow : row ∈ t.rows)
    (hkeep : ∀ ns r, t.record ns = some r → r.init ≠ 0 →
      ∃ r', t'.record ns = some r' ∧ r'.parent = r.parent) :
    Lineage t'.pidParent 1 row.ns (row.map.map (·.1)) := by
  have hlineage := h.lineage row hrow
  refine hlineage.congr fun ns hns => ?_
  obtain ⟨e, he, rfl⟩ := List.mem_map.mp hns
  obtain ⟨-, r, hr, -⟩ := h.issued row hrow e he
  obtain ⟨r', hr', hparent⟩ := hkeep e.1 r hr (h.init_ne_zero hrow he hr)
  have hne := hlineage.ne_root hns
  rw [pidParent_of_record hne hr', pidParent_of_record hne hr, hparent]

/-! ## One operation each -/

/-- Rows keep their pid, their namespace and their numbers; records with an init keep their
parent and that init. -/
theorem Inv.of_same (h : Inv t) (hpids : (t'.rows.map (·.pid)).Nodup)
    (hsame : ∀ row ∈ t'.rows, ∃ old ∈ t.rows,
      row.pid = old.pid ∧ row.map = old.map ∧ row.ns = old.ns)
    (hids : (t'.records.map (·.id)).Nodup) (hlarge : ∀ r ∈ t'.records, 2 ≤ r.id)
    (hcounters : ∀ r ∈ t'.records, 1 ≤ r.next ∧ (r.init = 0 ↔ r.next = 1) ∧
      (r.dead = true → r.init ≠ 0))
    (hkeep : ∀ ns r, t.record ns = some r → r.init ≠ 0 → ∃ r', t'.record ns = some r' ∧
      r'.parent = r.parent ∧ r'.init = r.init ∧ r'.next = r.next)
    (hattended : ∀ r ∈ t'.records, r.init ≠ 0 → r.dead = false →
      ∃ row ∈ t'.rows, row.zombie = false ∧ (r.id, 1) ∈ row.map) : Inv t' where
  ids := hids
  large := hlarge
  counters := hcounters
  pids := hpids
  positive row hrow := by
    obtain ⟨old, hold, hpid, -⟩ := hsame row hrow
    rw [hpid]
    exact h.positive old hold
  lineage row hrow := by
    obtain ⟨old, hold, -, hmap, hns⟩ := hsame row hrow
    rw [hmap, hns]
    refine h.lineage_congr hold fun ns r hr hinit => ?_
    obtain ⟨r', hr', hparent, -⟩ := hkeep ns r hr hinit
    exact ⟨r', hr', hparent⟩
  levels row hrow := by
    obtain ⟨old, hold, -, hmap, -⟩ := hsame row hrow
    rw [hmap]
    exact h.levels old hold
  issued row hrow e he := by
    obtain ⟨old, hold, -, hmap, -⟩ := hsame row hrow
    rw [hmap] at he
    obtain ⟨hone, r, hr, hlt⟩ := h.issued old hold e he
    obtain ⟨r', hr', -, -, hnext⟩ := hkeep e.1 r hr (h.init_ne_zero hold he hr)
    exact ⟨hone, r', hr', hnext ▸ hlt⟩
  distinct p hp q hq := by
    obtain ⟨p', hp', hpp, hpmap, -⟩ := hsame p hp
    obtain ⟨q', hq', hqp, hqmap, -⟩ := hsame q hq
    rw [hpp, hqp, hpmap, hqmap]
    exact h.distinct p' hp' q' hq'
  first row hrow ns he := by
    obtain ⟨old, hold, hpid, hmap, hns⟩ := hsame row hrow
    rw [hmap] at he
    obtain ⟨hown, r, hr, hinit⟩ := h.first old hold ns he
    obtain ⟨r', hr', -, hinit', -⟩ := hkeep ns r hr (h.init_ne_zero hold he hr)
    exact ⟨hns ▸ hown, r', hr', by rw [hinit', hinit, hpid]⟩
  attended := hattended

theorem Inv.of_records (h : Inv t) (hrows : t'.rows = t.rows) (hids : (t'.records.map (·.id)).Nodup)
    (hlarge : ∀ r ∈ t'.records, 2 ≤ r.id)
    (hcounters : ∀ r ∈ t'.records, 1 ≤ r.next ∧ (r.init = 0 ↔ r.next = 1) ∧
      (r.dead = true → r.init ≠ 0))
    (hkeep : ∀ ns r, t.record ns = some r → r.init ≠ 0 → t'.record ns = some r)
    (hold : ∀ r ∈ t'.records, r.init ≠ 0 → r ∈ t.records) : Inv t' := by
  refine h.of_same (hrows ▸ h.pids) (fun row hrow => ⟨row, hrows ▸ hrow, rfl, rfl, rfl⟩) hids hlarge
    hcounters (fun ns r hr hinit => ⟨r, hkeep ns r hr hinit, rfl, rfl, rfl⟩) ?_
  intro r hr hinit hdead
  rw [hrows]
  exact h.attended r (hold r hr hinit) hinit hdead

theorem Inv.create (h : Inv t) {parent : Nat}
    (ht : t.createPidNamespace id parent = .ok t') : Inv t' := by
  unfold Table.createPidNamespace at ht
  split at ht
  · cases ht
  rename_i hlarge
  split at ht
  · cases ht
  rename_i hfree
  split at ht
  · cases ht
  rename_i depth _
  split at ht
  · cases ht
  split at ht
  · cases ht
  cases ht
  have hnone : t.record id = none := by simpa using hfree
  have hnew : ∀ r ∈ t.records, r.id ≠ id := fun r hr => by
    simpa using List.find?_eq_none.mp hnone r hr
  refine h.of_records rfl ?_ ?_ ?_ ?_ ?_
  · rw [List.map_append, List.nodup_append]
    refine ⟨h.ids, by simp, fun a ha b hb => ?_⟩
    obtain ⟨r, hr, rfl⟩ := List.mem_map.mp ha
    simp only [List.map_cons, List.map_nil, List.mem_singleton] at hb
    exact hb ▸ hnew r hr
  · intro r hr
    rcases List.mem_append.mp hr with hr | hr
    · exact h.large r hr
    · simp only [List.mem_singleton] at hr
      subst hr
      exact Nat.lt_of_not_le hlarge
  · intro r hr
    rcases List.mem_append.mp hr with hr | hr
    · exact h.counters r hr
    · simp only [List.mem_singleton] at hr
      subst hr
      simp
  · intro ns r hr _
    unfold Table.record at hr ⊢
    rw [List.find?_append, hr]
    rfl
  · intro r hr hinit
    rcases List.mem_append.mp hr with hr | hr
    · exact hr
    · simp only [List.mem_singleton] at hr
      subst hr
      exact absurd rfl hinit

theorem Inv.discard (h : Inv t) (id : Nat) : Inv (t.discardEmptyPidNamespace id) := by
  unfold Table.discardEmptyPidNamespace
  split
  · exact h
  rename_i r hrecord
  split
  · rename_i hempty
    have hids : ((t.records.filter (·.id ≠ id)).map (·.id)).Nodup :=
      (List.filter_sublist.map _).nodup h.ids
    refine h.of_records rfl hids (fun r hr => h.large r (List.mem_of_mem_filter hr))
      (fun r hr => h.counters r (List.mem_of_mem_filter hr)) ?_
      (fun r hr _ => List.mem_of_mem_filter hr)
    intro ns other hother hinit
    have hne : other.id ≠ id := by
      intro heq
      rw [record_id hother] at heq
      subst heq
      rw [hrecord] at hother
      cases hother
      exact hinit hempty
    have hmem : other ∈ t.records.filter (·.id ≠ id) :=
      List.mem_filter.mpr ⟨record_mem hother, by simpa using hne⟩
    have := record_of_mem (t := { t with records := t.records.filter (·.id ≠ id) }) hids hmem
    rwa [record_id hother] at this
  · exact h

theorem Inv.setMemberships (h : Inv t) {values : Memberships} (hjoin : mayJoin t pid values = true)
    :
    Inv (t.setMemberships pid values) := by
  unfold Table.setMemberships
  split
  · exact h
  unfold mayJoin at hjoin
  cases hfind : t.find pid with
  | none => simp [hfind] at hjoin
  | some row =>
    simp only [hfind, Bool.and_eq_true, decide_eq_true_eq] at hjoin
    obtain ⟨⟨-, hpid⟩, -⟩ := hjoin
    -- The row keeps everything that the invariant reads.
    refine h.of_same ?_ ?_ h.ids h.large h.counters (fun ns r hr _ => ⟨r, hr, rfl, rfl, rfl⟩) ?_
    · rw [updateRow_pids (f := fun row => { row with memberships := values }) fun _ => rfl]
      exact h.pids
    · intro row' hrow'
      obtain ⟨old, hold, ⟨hown, rfl⟩ | ⟨-, rfl⟩⟩ := mem_updateRow hrow'
      · refine ⟨old, hold, rfl, rfl, ?_⟩
        have heq : old = row := row_unique h.pids hold (find_mem hfind)
          (hown.trans (find_pid hfind).symm)
        subst heq
        simp only [Row.ns, membership] at hpid ⊢
        omega
      · exact ⟨row', hold, rfl, rfl, rfl⟩
    · intro r hr hinit hdead
      obtain ⟨old, hold, hzombie, hmem⟩ := h.attended r hr hinit hdead
      refine ⟨_, List.mem_map_of_mem hold, ?_⟩
      split <;> exact ⟨hzombie, hmem⟩

theorem Inv.release (h : Inv t) (pid : Nat) : Inv (t.release pid) := by
  refine h.of_same ?_ (fun row hrow => ⟨row, List.mem_of_mem_filter hrow, rfl, rfl, rfl⟩) h.ids
    h.large h.counters (fun ns r hr _ => ⟨r, hr, rfl, rfl, rfl⟩) ?_
  · exact (List.filter_sublist.map _).nodup h.pids
  · intro r hr hinit hdead
    obtain ⟨row, hrow, hzombie, hmem⟩ := h.attended r hr hinit hdead
    exact ⟨row, List.mem_filter.mpr ⟨hrow, by simp [hzombie]⟩, hzombie, hmem⟩

@[simp] theorem Record.afterExit_id (r : Record) (pid : Nat) : (r.afterExit pid).id = r.id := by
  unfold Record.afterExit
  split <;> rfl

@[simp] theorem Record.afterExit_parent (r : Record) (pid : Nat) :
    (r.afterExit pid).parent = r.parent := by
  unfold Record.afterExit
  split <;> rfl

@[simp] theorem Record.afterExit_init (r : Record) (pid : Nat) :
    (r.afterExit pid).init = r.init := by
  unfold Record.afterExit
  split <;> rfl

@[simp] theorem Record.afterExit_next (r : Record) (pid : Nat) :
    (r.afterExit pid).next = r.next := by
  unfold Record.afterExit
  split <;> rfl

theorem exiting_record (row : Row) (ns : Nat) : (t.exiting row).record ns =
    if row.ns ≠ 1 ∧ ns = row.ns then (t.record ns).map (Record.afterExit · row.pid)
    else t.record ns := by
  unfold Table.exiting
  by_cases hroot : row.ns = 1
  · simp [hroot]
  have hupdate : (t.updateRecord row.ns (·.afterExit row.pid)).record ns =
      if ns = row.ns then (t.record ns).map (·.afterExit row.pid) else t.record ns :=
    record_updateRecord fun r => Record.afterExit_id r row.pid
  rw [if_neg hroot]
  simp only [hroot, ne_eq, not_false_eq_true, true_and]
  exact hupdate

theorem exiting_mem (h : r ∈ (t.exiting row).records) :
    ∃ old ∈ t.records, r.id = old.id ∧ (r = old ∨ r = old.afterExit row.pid) ∧
      (row.ns ≠ 1 → old.id = row.ns → r = old.afterExit row.pid) := by
  unfold Table.exiting at h
  split at h
  · rename_i hroot
    exact ⟨r, h, rfl, .inl rfl, fun hne => absurd hroot hne⟩
  · obtain ⟨old, hold, ⟨-, rfl⟩ | ⟨hid, rfl⟩⟩ := mem_updateRecord h
    · exact ⟨old, hold, Record.afterExit_id _ _, .inr rfl, fun _ _ => rfl⟩
    · exact ⟨r, hold, rfl, .inl rfl, fun _ h => absurd h hid⟩

theorem exiting_ids (row : Row) : (t.exiting row).records.map (·.id) = t.records.map (·.id) := by
  unfold Table.exiting
  split
  · rfl
  · exact updateRecord_ids (f := fun r => Record.afterExit r row.pid) fun r =>
      Record.afterExit_id r _

theorem Inv.exit (h : Inv t) (pid : Nat) : Inv (t.exit pid) := by
  unfold Table.exit
  cases hfind : t.find pid with
  | none => exact h
  | some row =>
    simp only
    have hrow := find_mem hfind
    have hpid := find_pid hfind
    have hrows : (t.exiting row).rows = t.rows := by
      unfold Table.exiting
      split <;> rfl
    refine h.of_same ?_ ?_ ?_ ?_ ?_ ?_ ?_
    · rw [updateRow_pids (f := fun row => { row with zombie := true }) fun _ => rfl, hrows]
      exact h.pids
    · intro row' hrow'
      obtain ⟨old, hold, ⟨-, rfl⟩ | ⟨-, rfl⟩⟩ := mem_updateRow hrow'
      · exact ⟨old, hrows ▸ hold, rfl, rfl, rfl⟩
      · exact ⟨row', hrows ▸ hold, rfl, rfl, rfl⟩
    · exact (exiting_ids row).symm ▸ h.ids
    · intro r hr
      obtain ⟨old, hold, hid, -, -⟩ := exiting_mem hr
      rw [hid]
      exact h.large old hold
    · intro r hr
      obtain ⟨old, hold, -, rfl | rfl, -⟩ := exiting_mem hr
      · exact h.counters r hold
      obtain ⟨hnext, hinit, hdead⟩ := h.counters old hold
      refine ⟨by simpa using hnext, by simpa using hinit, ?_⟩
      rw [Record.afterExit_init]
      unfold Record.afterExit
      split
      · rename_i howner
        intro _
        rw [howner]
        exact h.positive row hrow
      · exact hdead
    · intro ns r hr hinit
      change ∃ r', (t.exiting row).record ns = some r' ∧ _
      rw [exiting_record, hr]
      split
      · exact ⟨_, rfl, by simp, by simp, by simp⟩
      · exact ⟨r, rfl, rfl, rfl, rfl⟩
    · intro r hr hinit hdead
      obtain ⟨old, hold, hid, hcases, hown⟩ := exiting_mem hr
      -- The process that ends was not the first one of a namespace that stays alive.
      have hsame : r = old := by
        rcases hcases with rfl | rfl
        · rfl
        unfold Record.afterExit at hdead ⊢
        split at hdead
        · cases hdead
        · rename_i hne
          exact if_neg hne
      subst hsame
      obtain ⟨first, hfirst, hzombie, hmem⟩ := h.attended r hold hinit hdead
      have hother : first.pid ≠ pid := by
        intro heq
        obtain rfl : first = row := row_unique h.pids hfirst hrow (heq.trans hpid.symm)
        obtain ⟨hns, r', hr', hinit'⟩ := h.first first hrow r.id hmem
        rw [record_of_mem h.ids hold] at hr'
        cases hr'
        have hne : first.ns ≠ 1 := by
          have := h.large r hold
          omega
        have hafter := hown hne hns
        rw [hafter] at hdead
        simp [Record.afterExit, hinit'] at hdead
      refine ⟨first, ?_, hzombie, hmem⟩
      rw [← hrows] at hfirst
      have := List.mem_map_of_mem (f := fun row : Row =>
        if row.pid = pid then { row with zombie := true } else row) hfirst
      rwa [if_neg hother] at this

theorem Inv.enterNew (h : Inv t) (hmay : mayEnter t pid = true)
    (hroot : ∀ row, t.find pid = some row → row.ns = 1)
    (ht : t.enterNewPidNamespace pid = .ok t') : Inv t' := by
  unfold Table.enterNewPidNamespace at ht
  cases hfind : t.find pid with
  | none => simp [hfind] at ht
  | some row =>
    have hns := hroot row hfind
    have hrow := find_mem hfind
    have hpid := find_pid hfind
    have halive : row.zombie = false := by simpa [mayEnter, hfind] using hmay
    have hempty : row.map = [] := by
      have hlineage := h.lineage row hrow
      rw [hns] at hlineage
      exact List.map_eq_nil_iff.mp (hlineage.unique .root)
    simp only [hfind] at ht
    cases hrecord : t.record row.childNs with
    | none => simp [hrecord] at ht
    | some r =>
      simp only [hrecord] at ht
      split at ht
      · cases ht
      rename_i hopen
      simp only [not_or, not_not, Nat.not_le] at hopen
      obtain ⟨hparent, hinit, hnext, -⟩ := hopen
      rw [hns] at hparent
      cases ht
      have hid := record_id hrecord
      have hlarge := h.large r (record_mem hrecord)
      rw [hid] at hlarge
      -- No row has a number in the new namespace yet.
      have hunused : ∀ q ∈ t.rows, ∀ e ∈ q.map, e.1 ≠ row.childNs := by
        intro q hq e he heq
        exact h.init_ne_zero hq he (heq ▸ hrecord) hinit
      have hparents : (t.updateRecord row.childNs (·.start pid)).pidParent = t.pidParent :=
        pidParent_updateRecord (f := fun r => Record.start r pid) (fun _ => rfl) fun _ => rfl
      have hrecords : ∀ ns, (t.updateRecord row.childNs (·.start pid)).record ns =
          if ns = row.childNs then (t.record ns).map (·.start pid) else t.record ns :=
        fun ns => record_updateRecord (f := fun r => Record.start r pid) fun _ => rfl
      have hentered : (row.enter row.childNs).ns = row.childNs := by
        simp only [Row.enter, Row.ns, membership]
        omega
      have hkinds : ∀ q ∈ ((t.updateRecord row.childNs (·.start pid)).updateRow pid
          (·.enter row.childNs)).rows, q = row.enter row.childNs ∨ q ∈ t.rows ∧ q.pid ≠ pid := by
        intro q hq
        obtain ⟨old, hold, ⟨hown, rfl⟩ | ⟨hne, rfl⟩⟩ := mem_updateRow hq
        · rw [row_unique h.pids hold hrow (hown.trans hpid.symm)]
          exact .inl rfl
        · exact .inr ⟨hold, hne⟩
      have hself : row.enter row.childNs ∈ ((t.updateRecord row.childNs (·.start pid)).updateRow
          pid (·.enter row.childNs)).rows := by
        have := List.mem_map_of_mem (f := fun q : Row =>
          if q.pid = pid then q.enter row.childNs else q) hrow
        rwa [if_pos hpid] at this
      have hmap : (row.enter row.childNs).map = [(row.childNs, 1)] := by
        simp [Row.enter, hempty]
      refine ⟨?_, ?_, ?_, ?_, ?_, ?_, ?_, ?_, ?_, ?_, ?_⟩
      · exact updateRecord_ids (t := t) (f := fun r => Record.start r pid) (fun _ => rfl) ▸ h.ids
      · intro r' hr'
        obtain ⟨old, hold, ⟨-, rfl⟩ | ⟨-, rfl⟩⟩ := mem_updateRecord hr'
        · exact h.large old hold
        · exact h.large r' hold
      · intro r' hr'
        obtain ⟨old, hold, ⟨-, rfl⟩ | ⟨-, rfl⟩⟩ := mem_updateRecord hr'
        · have hpos : pid ≠ 0 := hpid ▸ h.positive row hrow
          simp [Record.start, hpos]
        · exact h.counters r' hold
      · rw [updateRow_pids (f := fun q => Row.enter q row.childNs) fun _ => rfl]
        exact h.pids
      · intro q hq
        rcases hkinds q hq with rfl | ⟨hq, -⟩
        · exact h.positive row hrow
        · exact h.positive q hq
      · intro q hq
        change Lineage (t.updateRecord row.childNs (·.start pid)).pidParent 1 _ _
        rw [hparents]
        rcases hkinds q hq with rfl | ⟨hq, -⟩
        · rw [hentered, hmap]
          have hne : row.childNs ≠ 1 := by omega
          exact .step hne (pidParent_of_record hne hrecord) (hparent ▸ .root)
        · exact h.lineage q hq
      · intro q hq
        rcases hkinds q hq with rfl | ⟨hq, -⟩
        · rw [hmap, List.length_singleton]
          decide
        · exact h.levels q hq
      · intro q hq e he
        change _ ∧ ∃ r', (t.updateRecord row.childNs (·.start pid)).record e.1 = some r' ∧ _
        rcases hkinds q hq with rfl | ⟨hq, -⟩
        · rw [hmap, List.mem_singleton] at he
          subst he
          refine ⟨Nat.le_refl _, r.start pid, ?_, ?_⟩
          · rw [hrecords, if_pos rfl, hrecord]
            rfl
          · exact Nat.one_lt_two
        · obtain ⟨hone, r', hr', hlt⟩ := h.issued q hq e he
          exact ⟨hone, r', by rw [hrecords, if_neg (hunused q hq e he), hr'], hlt⟩
      · intro p hp q hq e hep heq
        rcases hkinds p hp with rfl | ⟨hp, -⟩ <;> rcases hkinds q hq with rfl | ⟨hq, -⟩
        · rfl
        · rw [hmap, List.mem_singleton] at hep
          exact absurd (congrArg Prod.fst hep) (hunused q hq e heq)
        · rw [hmap, List.mem_singleton] at heq
          exact absurd (congrArg Prod.fst heq) (hunused p hp e hep)
        · exact h.distinct p hp q hq e hep heq
      · intro q hq ns he
        change _ ∧ ∃ r', (t.updateRecord row.childNs (·.start pid)).record ns = some r' ∧ _
        rcases hkinds q hq with rfl | ⟨hq, -⟩
        · rw [hmap, List.mem_singleton] at he
          obtain rfl := congrArg Prod.fst he
          refine ⟨hentered.symm, r.start pid, ?_, hpid.symm⟩
          rw [hrecords, if_pos rfl, hrecord]
          rfl
        · obtain ⟨hown, r', hr', hinit'⟩ := h.first q hq ns he
          exact ⟨hown, r', by rw [hrecords, if_neg (hunused q hq _ he), hr'], hinit'⟩
      · intro r' hr' hinit' hdead
        obtain ⟨old, hold, ⟨hown, rfl⟩ | ⟨-, rfl⟩⟩ := mem_updateRecord hr'
        · refine ⟨row.enter row.childNs, hself, halive, ?_⟩
          rw [hmap, List.mem_singleton]
          exact congrArg (·, 1) hown
        obtain ⟨q, hq, hzombie, hmem⟩ := h.attended r' hold hinit' hdead
        have hne : q.pid ≠ pid := by
          intro heq
          rw [row_unique h.pids hq hrow (heq.trans hpid.symm), hempty] at hmem
          cases hmem
        refine ⟨q, ?_, hzombie, hmem⟩
        have := List.mem_map_of_mem (f := fun q : Row =>
          if q.pid = pid then q.enter row.childNs else q) hq
        rwa [if_neg hne] at this

end Kinakaze.PidNamespace
