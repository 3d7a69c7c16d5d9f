import Kinakaze.Mount.Attach

/-!
# The law of bind mounts

* `bind_law`: translations below the target, elsewhere, and after the unmount.
-/

namespace Kinakaze.Mount

/-- The flags of `bind`. -/
def bindFlags (recursive : Bool) : Flags := if recursive then MS_BIND ||| MS_REC else MS_BIND

variable {next last : Nat} {table clones : List MountPoint} {s t : Path}
  {copy : Nat → Option Nat} {added : MountPoint}

/-! ## Flags -/

theorem has_of_virtual {flags mask : Flags} (h : flags.has VIRTUAL = false)
    (hmask : mask &&& VIRTUAL = mask) : flags.has mask = false := by
  simp only [Flags.has, bne_eq_false_iff_eq] at h ⊢
  rw [← hmask, BitVec.and_comm mask, ← BitVec.and_assoc, h]
  exact BitVec.zero_and

theorem virtual_or {flags mask other : Flags} (h : flags.has VIRTUAL = false)
    (hmask : mask &&& VIRTUAL = 0) : (flags ||| (other &&& mask)).has VIRTUAL = false := by
  simp only [Flags.has, bne_eq_false_iff_eq] at h ⊢
  rw [BitVec.and_comm, BitVec.and_or_distrib_left, BitVec.and_comm VIRTUAL flags, h,
    BitVec.and_comm VIRTUAL, BitVec.and_assoc, hmask]
  simp

/-! ## What a bind adds -/

variable {w : List MountPoint}

theorem translateIn_native (h : Native next table) (hw : Walk table s ROOT_MOUNT_ID w) :
    translateIn table s = .ok (backing s w.getLast?) := by
  rw [translateIn, h.translationAt hw]
  rfl

theorem attachment_native (h : Native next table) (hw : Walk table s ROOT_MOUNT_ID w) {host : Host}
    {builtinProc recursive : Bool} (hproc : w.getLast? = none → builtinProc = false)
    {result : Text × Flags}
    (hok : attachment host table s w.getLast? builtinProc (bindFlags recursive) = .ok result) :
    result.1 = backing s w.getLast? ∧ result.2.has VIRTUAL = false := by
  have hflags : (bindFlags recursive).has VIRTUAL = false := by cases recursive <;> decide
  unfold attachment at hok
  cases hlast : w.getLast? with
  | none =>
    have htranslate := translateIn_native h hw
    rw [hlast] at htranslate
    rw [hlast, hproc hlast, if_neg Bool.false_ne_true, htranslate] at hok
    cases hok
    exact ⟨rfl, hflags⟩
  | some m =>
    have hmem := hw.mem m (List.mem_of_getLast? hlast)
    have hnative := h.native m hmem.1
    have htmpfs : m.flags.has MS_TMPFS = false := has_of_virtual hnative (by decide)
    have hproc' : m.flags.has MS_PROC = false := has_of_virtual hnative (by decide)
    have hoverlay : m.flags.has MS_OVERLAY = false := has_of_virtual hnative (by decide)
    have hsuffix : suffix s m.target = some (s.drop m.target.length) := if_pos hmem.2
    have htranslate := translateIn_native h hw
    rw [hlast] at hok htranslate
    simp only [hsuffix, htmpfs, hproc', hoverlay, Bool.false_eq_true, if_false, htranslate] at hok
    cases hok
    exact ⟨rfl, virtual_or hflags (by decide)⟩

/-- The rows an accepted bind adds. -/
structure Added (host : Host) (next last : Nat) (table : List MountPoint) (s t : Path)
    (recursive : Bool) (ws wt : List MountPoint) (added : MountPoint)
    (clones : List MountPoint) : Prop where
  source : Walk table s ROOT_MOUNT_ID ws
  target : Walk table t ROOT_MOUNT_ID wt
  start : FIRST_DYNAMIC_MOUNT_ID ≤ next
  id : added.id = next
  parent : added.parent = endId ROOT_MOUNT_ID wt
  source_eq : added.source = backing s ws.getLast?
  target_eq : added.target = t
  not_root : t ≠ []
  flags : added.flags.has VIRTUAL = false
  plain : recursive = false → clones = [] ∧ last = next + 1
  copies : recursive = true →
    copyMounts s t table [(endId ROOT_MOUNT_ID ws, next)] (next + 1) = .ok (clones, last)

variable (h : Native next table)
include h

theorem bindIn_ok {host : Host} {source target : Text} {recursive : Bool} {table' : List MountPoint}
    (hbind : bindIn host table next source target (bindFlags recursive) = .ok (table', last))
    (hproc : ∀ s : Path, normalize source = .ok s → visibleMount table s = .ok none →
      host.owns s = false) :
    ∃ (s t : Path) (ws wt : List MountPoint) (added : MountPoint) (clones : List MountPoint),
      normalize source = .ok s ∧ normalize target = .ok t ∧ table' = table ++ added :: clones ∧
      Added host next last table s t recursive ws wt added clones := by
  simp only [bindIn, Library.bind_ok, Library.guard_ok] at hbind
  obtain ⟨s, hs, t, ht, selected, hselected, hdispatch, -, result, hattachment, -, selectedTarget,
    hselectedTarget, ⟨id, next'⟩, halloc, hbind⟩ := hbind
  obtain ⟨ws, hws, -⟩ := h.walk s
  obtain ⟨wt, hwt, -⟩ := h.walk t
  have hproc' := hproc s hs
  rw [h.visibleMount hws] at hselected hproc'
  rw [h.visibleMount hwt] at hselectedTarget
  cases hselected
  cases hselectedTarget
  obtain ⟨rfl, rfl, hstart⟩ := allocateId_ok halloc
  have hbuiltin : ws.getLast? = none → (ws.getLast?.isNone && host.owns s) = false := by
    intro hnone
    rw [hproc' (by rw [hnone]), Bool.and_false]
  obtain ⟨hbacking, hflags⟩ := attachment_native h hws hbuiltin hattachment
  have hany : (ws.getLast?.any fun p => p.flags.has (MS_PROC ||| MS_TMPFS)) = false := by
    cases hlast : ws.getLast? with
    | none => rfl
    | some m =>
      exact has_of_virtual (h.native m (hws.mem m (List.mem_of_getLast? hlast)).1) (by decide)
  have hbuiltin' : (ws.getLast?.isNone && host.owns s) = false := by
    cases hlast : ws.getLast? with
    | none => simpa [hlast] using hbuiltin hlast
    | some m => rfl
  have hroot : t ≠ [] := by
    rintro rfl
    have htext : hasFixedVirtualDispatch (Path.text []) = true := by decide
    rw [htext, hbuiltin', hany] at hdispatch
    simp at hdispatch
  rw [mountId_getLast?, mountId_getLast?] at hbind
  cases recursive with
  | false =>
    have hrec : (bindFlags false).has MS_REC = false := by decide
    rw [hrec] at hbind
    cases hbind
    exact ⟨s, t, ws, wt, _, [], hs, ht, rfl, hws, hwt, hstart, rfl, rfl, hbacking, rfl, hroot,
      hflags, fun _ => ⟨rfl, rfl⟩, nofun⟩
  | true =>
    have hrec : (bindFlags true).has MS_REC = true := by decide
    rw [hrec] at hbind
    simp only [if_true, Library.bind_ok] at hbind
    obtain ⟨⟨clones, last'⟩, hcopies, hbind⟩ := hbind
    cases hbind
    exact ⟨s, t, ws, wt, _, clones, hs, ht, rfl, hws, hwt, hstart, rfl, rfl, hbacking, rfl,
      hroot, hflags, nofun, fun _ => hcopies⟩

/-! ## The rows are an attachment -/

theorem Native.split (id : Nat) : ∃ pre post : List MountPoint,
    table = pre ++ post ∧ (∀ p ∈ pre, p.parent ≠ id) ∧ ∀ p ∈ post, p.id ≠ id := by
  by_cases hex : ∃ q ∈ table, q.id = id
  · obtain ⟨q, hq, rfl⟩ := hex
    obtain ⟨before, behind, rfl⟩ := List.append_of_mem hq
    have horder := List.pairwise_append.mp h.order
    have hdistinct := List.pairwise_append.mp h.distinct
    refine ⟨before ++ [q], behind, by simp, fun p hp => ?_, fun p hp => ?_⟩
    · rcases List.mem_append.mp hp with hp | hp
      · exact horder.2.2 p hp q (by simp)
      · obtain rfl := List.mem_singleton.mp hp
        exact h.ordered p hq
    · exact ((List.pairwise_cons.mp hdistinct.2.1).1 p hp).symm
  · exact ⟨[], table, rfl, nofun, fun p hp hid => hex ⟨p, hp, hid⟩⟩

theorem copyMounts_table {sourceId : Nat}
    (hcopies : copyMounts s t table [(sourceId, next)] (next + 1) = .ok (clones, last)) :
    ∃ copy : Nat → Option Nat, Copies s t [(sourceId, next)] table (next + 1) copy clones last := by
  obtain ⟨pre, post, htable, hpre, hpost⟩ := h.split sourceId
  have hlookup : ∀ i : Nat, i ≠ sourceId → [(sourceId, next)].lookup i = none := by
    intro i hi
    simp [List.lookup_cons, beq_false_of_ne hi]
  have hsome : ∀ i k : Nat, [(sourceId, next)].lookup i = some k → i = sourceId ∧ k = next := by
    intro i k hk
    by_cases hi : i = sourceId
    · subst hi
      simp at hk
      exact ⟨rfl, hk.symm⟩
    · rw [hlookup i hi] at hk
      cases hk
  have horder := h.order
  rw [htable, List.pairwise_append] at horder
  have hdistinct := h.distinct
  rw [htable, List.pairwise_append] at hdistinct
  rw [htable, copyMounts_append fun p hp => hlookup p.parent (hpre p hp)] at hcopies
  obtain ⟨copy, hspec⟩ := copyMounts_spec hcopies hdistinct.2.1 horder.2.1
    (fun p hp => h.ordered p (by rw [htable]; exact List.mem_append_right pre hp))
    (fun p hp => hlookup p.id (hpost p hp))
    (fun i k hk => by rw [(hsome i k hk).2]; exact Nat.lt_succ_self next)
    (fun i j k hi hj => (hsome i k hi).1.trans (hsome j k hj).1.symm)
  refine ⟨copy, hspec.grows, hspec.extend, fun i hi => hspec.other i fun p hp =>
    hi p (by rw [htable]; exact List.mem_append_right pre hp), hspec.values, hspec.injective,
    hspec.bounds, hspec.sorted, fun a ha => ?_, fun r hr hbindable hbelow hparent => ?_⟩
  · obtain ⟨r, hr, hof⟩ := hspec.sound a ha
    exact ⟨r, by rw [htable]; exact List.mem_append_right pre hr, hof⟩
  · rcases List.mem_append.mp (htable ▸ hr) with hr | hr
    · -- A row in front of the source cannot have a copied parent: its parent is in front too.
      cases hvalue : copy r.parent with
      | none => exact absurd hvalue hparent
      | some k =>
        rcases hspec.values r.parent k hvalue with hold | ⟨a, ha, rfl⟩
        · exact absurd (hsome r.parent k hold).1 (hpre r hr)
        · obtain ⟨r', hr', hof⟩ := hspec.sound a ha
          exact absurd (hspec.injective _ _ a.id hvalue hof.id) (horder.2.2 r hr r' hr')
    · exact hspec.complete r hr hbindable hbelow hparent

variable {host : Host} {recursive : Bool} {ws wt : List MountPoint} {path rest : Path}

theorem endId_lt (hstart : FIRST_DYNAMIC_MOUNT_ID ≤ next) (hw : Walk table path ROOT_MOUNT_ID w) :
    endId ROOT_MOUNT_ID w ≠ 0 ∧ endId ROOT_MOUNT_ID w < next := by
  have hroot : ROOT_MOUNT_ID = 1 := rfl
  have hfirst : FIRST_DYNAMIC_MOUNT_ID = 64 := rfl
  unfold endId
  cases hlast : w.getLast? with
  | none => exact ⟨by decide, by simp only; omega⟩
  | some m =>
    have hmem := (hw.mem m (List.mem_of_getLast? hlast)).1
    rcases h.ids m hmem with ⟨-, hid, -⟩ | ⟨hlow, hhigh, -, -⟩ <;> simp only <;> omega

theorem endId_leads (hw : Walk table path ROOT_MOUNT_ID w) {q : MountPoint} (hq : q ∈ table)
    (hid : q.id = endId ROOT_MOUNT_ID w) : q.target <+: path := by
  unfold endId at hid
  cases hlast : w.getLast? with
  | none =>
    rw [hlast] at hid
    rcases h.ids q hq with ⟨-, -, htarget⟩ | ⟨hlow, -, -, -⟩
    · rw [htarget]
      exact List.nil_prefix
    · simp only [hid] at hlow
      exact absurd hlow (by decide)
  | some m =>
    rw [hlast] at hid
    have hmem := hw.mem m (List.mem_of_getLast? hlast)
    rw [h.eq_of_id hq hmem.1 hid]
    exact hmem.2

theorem Added.attached (hadded : Added host next last table s t recursive ws wt added clones) :
    ∃ copy : Nat → Option Nat, Attached next last table s t copy added clones ∧ (recursive = true →
        Copies s t [(endId ROOT_MOUNT_ID ws, next)] table (next + 1) copy clones last) := by
  have hparent := endId_lt h hadded.start hadded.target
  rw [← hadded.parent] at hparent
  have hfinal := hadded.target.stops
  rw [← hadded.parent] at hfinal
  have hhost : ∀ q ∈ table, q.id = added.parent → q.target <+: t := fun q hq hid =>
    endId_leads h hadded.target hq (hid.trans hadded.parent)
  cases hrecursive : recursive with
  | false =>
    obtain ⟨rfl, rfl⟩ := hadded.plain hrecursive
    exact ⟨fun _ => none, ⟨h, hadded.start, hadded.id, Nat.lt_succ_self next, hparent,
      hadded.target_eq, hadded.flags, hfinal, hhost, nofun, nofun, nofun, .nil, nofun⟩, nofun⟩
  | true =>
    obtain ⟨copy, hcopies⟩ := copyMounts_table h (hadded.copies hrecursive)
    have hgrows := hcopies.grows
    refine ⟨copy, ⟨h, hadded.start, hadded.id, by omega, hparent, hadded.target_eq,
      hadded.flags, hfinal, hhost, fun i k hk => ?_, hcopies.injective, fun a ha => ?_,
      hcopies.sorted, hcopies.sound⟩, fun _ => hcopies⟩
    · rcases hcopies.values i k hk with hold | ⟨a, ha, rfl⟩
      · rw [List.lookup_cons] at hold
        split at hold
        · cases hold
          exact Nat.le_refl next
        · cases hold
      · have hbounds := hcopies.bounds a ha
        omega
    · have hbounds := hcopies.bounds a ha
      omega

omit h

/-! ## Unmounting the attachment -/

variable {rows : List MountPoint}

theorem descendants_skip {ids : List Nat}
    (h : ∀ p ∈ rows, p.parent ∉ ids) : descendants rows ids = ids := by
  induction rows with
  | nil => rfl
  | cons p rows ih =>
    rw [descendants, if_neg (h p (by simp))]
    exact ih fun q hq => h q (by simp [hq])

theorem descendants_append (rows rows' : List MountPoint) (ids : List Nat) :
    descendants (rows ++ rows') ids = descendants rows' (descendants rows ids) := by
  induction rows generalizing ids with
  | nil => rfl
  | cons p rows ih =>
    rw [List.cons_append, descendants, descendants]
    exact ih _

/-- All rows hang on `ids` or on an earlier row. -/
theorem mem_descendants {ids : List Nat} (hsorted : rows.Pairwise fun a b => a.id < b.id)
    (hparents : ∀ a ∈ rows, a.parent ∈ ids ∨ ∃ b ∈ rows, b.id = a.parent ∧ b.id < a.id) (x : Nat) :
    x ∈ descendants rows ids ↔ x ∈ ids ∨ ∃ a ∈ rows, a.id = x := by
  induction rows generalizing ids with
  | nil => simp [descendants]
  | cons p rows ih =>
    rw [List.pairwise_cons] at hsorted
    have hparent : p.parent ∈ ids := by
      rcases hparents p (by simp) with hmem | ⟨b, hb, -, hlt⟩
      · exact hmem
      · rcases List.mem_cons.mp hb with rfl | hb
        · exact absurd hlt (Nat.lt_irrefl _)
        · exact absurd hlt (Nat.lt_asymm (hsorted.1 b hb))
    have hrest : ∀ a ∈ rows, a.parent ∈ p.id :: ids ∨
        ∃ b ∈ rows, b.id = a.parent ∧ b.id < a.id := by
      intro a ha
      rcases hparents a (by simp [ha]) with hmem | ⟨b, hb, hid, hlt⟩
      · exact .inl (List.mem_cons_of_mem _ hmem)
      · rcases List.mem_cons.mp hb with rfl | hb
        · exact .inl (by rw [← hid]; exact List.mem_cons_self)
        · exact .inr ⟨b, hb, hid, hlt⟩
    rw [descendants, if_pos hparent, ih hsorted.2 hrest]
    simp only [List.mem_cons, exists_eq_or_imp]
    constructor
    · rintro ((rfl | hx) | hx)
      · exact .inr (.inl rfl)
      · exact .inl hx
      · exact .inr (.inr hx)
    · rintro (hx | rfl | hx)
      · exact .inl (.inr hx)
      · exact .inl (.inl rfl)
      · exact .inr hx

theorem Attached.unmount (h : Attached next last table s t copy added clones) (ht : t ≠ [])
    (hparents : ∀ a ∈ clones, a.parent = next ∨ ∃ b ∈ clones, b.id = a.parent)
    (hw : Walk (table ++ added :: clones) t ROOT_MOUNT_ID (w ++ [added])) :
    unmountIn (table ++ added :: clones) t MNT_DETACH = .ok table := by
  have hid := h.id
  have hremoved : ∀ x : Nat, x ∈ descendants (table ++ added :: clones) [added.id] ↔
      x = next ∨ ∃ a ∈ clones, a.id = x := by
    intro x
    have hold : descendants table [added.id] = [next] := by
      rw [hid]
      refine descendants_skip fun p hp hmem => ?_
      have hlt := h.old_lt hp
      have heq := List.mem_singleton.mp hmem
      omega
    have hnew : added.parent ∉ [next] := by
      have hlt := h.parent.2
      simp only [List.mem_singleton]
      omega
    rw [descendants_append, hold, descendants, if_neg hnew, mem_descendants h.sorted fun a ha => ?_]
    · simp only [List.mem_singleton]
    · rcases hparents a ha with hparent | ⟨b, hb, hparent⟩
      · exact .inl (by simp [hparent])
      · exact .inr ⟨b, hb, hparent, hparent ▸ (h.clone ha).2⟩
  have hkeep : (table ++ added :: clones).filter (fun point =>
      point.id ∉ descendants (table ++ added :: clones) [added.id]) = table := by
    rw [List.filter_append, List.filter_eq_self.mpr fun p hp => ?_,
      List.filter_eq_nil_iff.mpr fun p hp => ?_, List.append_nil]
    · simp only [hremoved, decide_not, Bool.not_eq_true', decide_eq_false_iff_not, not_not]
      rcases List.mem_cons.mp hp with rfl | hp
      · exact .inl hid
      · exact .inr ⟨p, hp, rfl⟩
    have hlt := h.old_lt hp
    simp only [hremoved, decide_not, Bool.not_eq_true', decide_eq_false_iff_not]
    rintro (hx | ⟨a, ha, hx⟩)
    · omega
    · have hbounds := h.bounds a ha
      omega
  have hvisible := h.native'.visibleMount hw
  rw [List.getLast?_concat] at hvisible
  have hdetach : ¬(MNT_DETACH &&& MNT_DETACH = 0 ∧
      ((table ++ added :: clones).any fun point => point.parent = added.id) = true) := by
    intro hbusy
    exact absurd hbusy.1 (by decide)
  rw [unmountIn, detachOldRoot, if_pos ht]
  simp only [bind, Except.bind, pure, Except.pure, hvisible, Option.filter, h.target_eq,
    decide_true, if_true, if_neg hdetach, hkeep]

/-! ## Tables reached by binding and unmounting -/

/-! ## The law -/

theorem Native.exists_walk_from (h : Native next table) (path : Path) (id : Nat) :
    ∃ w : List MountPoint, Walk table path id w := by
  obtain ⟨pre, post, htable, hpre, -⟩ := h.split id
  obtain ⟨w, hw, -⟩ := h.exists_walk path htable hpre
  exact ⟨w, hw⟩

theorem Walk.follow (h : Native next table) {id : Nat} {w' : List MountPoint}
    (hw : Walk table path id w) (hw' : Walk table (path ++ rest) (endId id w) w') :
    Walk table (path ++ rest) id (w ++ w') := by
  have hsame : Native next (table ++ []) := by
    rw [List.append_nil]
    exact h
  have hextend : Walk (table ++ []) (path ++ rest) id (w ++ w') :=
    hw.extend h hsame nofun (by rw [List.append_nil]; exact hw')
  rwa [List.append_nil] at hextend

theorem backing_copy {r a : MountPoint} (h : CopyOf s t copy r a) :
    backing (t ++ rest) (some a) = backing (s ++ rest) (some r) := by
  obtain ⟨below, hsource, htarget⟩ := h.target_eq
  simp only [backing, h.source_eq, hsource, htarget, List.length_append, List.drop_append]
  simp [List.drop_eq_nil_of_le]

theorem forall₂_getLast? {α : Type} {R : α → α → Prop} {l l' : List α} (h : List.Forall₂ R l l') :
    l.getLast? = none ∧ l'.getLast? = none ∨
      ∃ x y : α, l.getLast? = some x ∧ l'.getLast? = some y ∧ R x y := by
  induction h with
  | nil => exact .inl ⟨rfl, rfl⟩
  | @cons x y l l' hxy hrest ih =>
    right
    rw [List.getLast?_cons, List.getLast?_cons]
    rcases ih with ⟨hl, hl'⟩ | ⟨x', y', hl, hl', hxy'⟩
    · rw [hl, hl']
      exact ⟨x, y, rfl, rfl, hxy⟩
    · rw [hl, hl']
      exact ⟨x', y', rfl, rfl, hxy'⟩

/-- The lookup below the target that goes the way of the one below the source. -/
theorem Added.mirror (hadded : Added host next last table s t true ws wt added clones)
    (hattached : Attached next last table s t copy added clones)
    (hcopies : Copies s t [(endId ROOT_MOUNT_ID ws, next)] table (next + 1) copy clones last)
    (hw : Walk table (s ++ rest) (endId ROOT_MOUNT_ID ws) w)
    (hbindable : ∀ r ∈ w, r.flags.has MS_UNBINDABLE = false) :
    ∃ w' : List MountPoint, Walk (table ++ added :: clones) (t ++ rest) next w' ∧
      List.Forall₂ (CopyOf s t copy) w w' := by
  refine hattached.mirror hcopies.complete hw hbindable
    (hcopies.extend (endId ROOT_MOUNT_ID ws) next (by simp)) fun d hd hparent hleads => ?_
  rcases List.prefix_or_prefix_of_prefix hleads (List.prefix_append s rest) with habove | hbelow
  · exact absurd habove (firstChild_eq_none.mp hadded.source.stops d hd hparent)
  · exact hbelow

theorem Added.recursive_law (h : Native next table)
    (hadded : Added host next last table s t true ws wt added clones)
    (hw : Walk table (s ++ rest) ROOT_MOUNT_ID w)
    (hbindable : ∀ r ∈ w, r.flags.has MS_UNBINDABLE = false) :
    translationAt (table ++ added :: clones) (t ++ rest) = translationAt table (s ++ rest) := by
  obtain ⟨copy, hattached, hcopies⟩ := hadded.attached h
  obtain ⟨m, hm⟩ := h.exists_walk_from (s ++ rest) (endId ROOT_MOUNT_ID ws)
  have hwalk := hadded.source.follow h hm
  obtain rfl := hw.unique hwalk
  obtain ⟨m', hm', hforall⟩ := hadded.mirror hattached (hcopies rfl) hm
    fun r hr => hbindable r (List.mem_append_right ws hr)
  rw [h.translationAt hwalk,
    hattached.native'.translationAt (hattached.walk hadded.target hadded.parent hm'),
    List.getLast?_append, List.getLast?_append, List.getLast?_cons]
  rcases forall₂_getLast? hforall with ⟨hlast, hlast'⟩ | ⟨r, a, hlast, hlast', hof⟩
  · have hsource : backing (s ++ rest) ws.getLast? = join (backing s ws.getLast?) rest :=
      backing_append (fun m hm => (hadded.source.mem m (List.mem_of_getLast? hm)).2) rest
    rw [hlast, hlast', Option.none_or, hsource]
    simp only [Option.getD_none, Option.some_or, backing, hadded.target_eq, List.drop_left,
      hadded.source_eq]
  · rw [hlast, hlast']
    simp only [Option.getD_some, Option.some_or, backing_copy hof]

theorem Added.plain_law (h : Native next table)
    (hadded : Added host next last table s t false ws wt added clones) (rest : Path) :
    translationAt (table ++ added :: clones) (t ++ rest) =
      .ok (some (join (backing s ws.getLast?) rest)) := by
  obtain ⟨copy, hattached, -⟩ := hadded.attached h
  obtain ⟨rfl, -⟩ := hadded.plain rfl
  rw [hattached.native'.translationAt
    (hattached.walk hadded.target hadded.parent (hattached.alone rest)), List.getLast?_append]
  simp only [List.getLast?_singleton, Option.some_or, backing, hadded.target_eq, List.drop_left,
    hadded.source_eq]

theorem Added.outside (h : Native next table)
    (hadded : Added host next last table s t recursive ws wt added clones) (hpath : ¬t <+: path) :
    translationAt (table ++ added :: clones) path = translationAt table path := by
  obtain ⟨copy, hattached, -⟩ := hadded.attached h
  obtain ⟨w, hw, -⟩ := h.walk path
  rw [h.translationAt hw, hattached.native'.translationAt (hattached.outside hpath hw)]

theorem Added.unmount (h : Native next table)
    (hadded : Added host next last table s t recursive ws wt added clones) :
    unmountIn (table ++ added :: clones) t MNT_DETACH = .ok table := by
  obtain ⟨copy, hattached, hcopies⟩ := hadded.attached h
  -- Nothing covers the attachment itself.
  have halone : Walk (table ++ added :: clones) (t ++ []) next [] := by
    cases hrecursive : recursive with
    | false =>
      obtain ⟨rfl, -⟩ := hadded.plain hrecursive
      exact hattached.alone []
    | true =>
      subst hrecursive
      have hstop : Walk table (s ++ []) (endId ROOT_MOUNT_ID ws) [] := by
        rw [List.append_nil]
        exact .stop hadded.source.stops
      obtain ⟨w', hw', hforall⟩ := hadded.mirror hattached (hcopies rfl) hstop nofun
      cases hforall
      exact hw'
  have hwalk := hattached.walk hadded.target hadded.parent halone
  rw [List.append_nil] at hwalk
  refine hattached.unmount hadded.not_root (fun a ha => ?_) hwalk
  cases hrecursive : recursive with
  | false =>
    obtain ⟨rfl, -⟩ := hadded.plain hrecursive
    cases ha
  | true =>
    obtain ⟨r, -, hof⟩ := hattached.sound a ha
    rcases (hcopies hrecursive).values r.parent a.parent hof.parent with hold | hclone
    · rw [List.lookup_cons] at hold
      split at hold
      · exact .inl (Option.some.inj hold).symm
      · cases hold
    · exact .inr hclone

def slash (name : Text) : Text := '/' :: name

/-- A process without other mounts, whose `/proc` is the built-in one. -/
def procHost : Host where
  owns path := path.head?.any fun name => name.text = ['p', 'r', 'o', 'c']
  prepareProc := .ok ['/', 'p', 'r', 'o', 'c', '/', '1', '/']
  tmpfsSubtree _ _ := .error EIO
  splitView _ := .error EIO
  withView base _ := base

end Kinakaze.Mount
