import Kinakaze.Mount.Lookup

/-!
# What a recursive bind copies

* `copyMounts_spec`: the loop makes one clone of each mount below the source whose parent
  was copied, the unbindable ones left out, and nothing else.
-/

namespace Kinakaze.Mount

theorem allocateId_ok {nextId id next' : Nat} (h : allocateId nextId = .ok (id, next')) :
    id = nextId ∧ next' = nextId + 1 ∧ FIRST_DYNAMIC_MOUNT_ID ≤ nextId := by
  unfold allocateId at h
  split at h
  · next hrange =>
    cases h
    exact ⟨rfl, rfl, hrange.1⟩
  · cases h

/-- `a` is the clone of `r` when `copy` tells the clone of each id. -/
structure CopyOf (source target : Path) (copy : Nat → Option Nat) (r a : MountPoint) : Prop where
  bindable : r.flags.has MS_UNBINDABLE = false
  id : copy r.id = some a.id
  parent : copy r.parent = some a.parent
  older : a.parent < a.id
  source_eq : a.source = r.source
  flags_eq : a.flags = r.flags
  target_eq : ∃ below : Path, r.target = source ++ below ∧ a.target = target ++ below

/-- What the loop has made of `rows` when it ends. -/
structure Copies (source target : Path) (copied : List (Nat × Nat)) (rows : List MountPoint)
    (first : Nat) (copy : Nat → Option Nat) (clones : List MountPoint) (last : Nat) : Prop where
  grows : first ≤ last
  extend : ∀ i k : Nat, copied.lookup i = some k → copy i = some k
  other : ∀ i : Nat, (∀ p ∈ rows, p.id ≠ i) → copy i = copied.lookup i
  values : ∀ i k : Nat, copy i = some k → copied.lookup i = some k ∨ ∃ a ∈ clones, a.id = k
  injective : ∀ i j k : Nat, copy i = some k → copy j = some k → i = j
  bounds : ∀ a ∈ clones, first ≤ a.id ∧ a.id < last
  sorted : clones.Pairwise fun a b => a.id < b.id
  sound : ∀ a ∈ clones, ∃ r ∈ rows, CopyOf source target copy r a
  complete : ∀ r ∈ rows, r.flags.has MS_UNBINDABLE = false → source <+: r.target →
    copy r.parent ≠ none → ∃ a ∈ clones, CopyOf source target copy r a

variable {source target : Path}
variable {copied : List (Nat × Nat)} {rows clones : List MountPoint} {first last : Nat}

variable {copy : Nat → Option Nat}

theorem Copies.skip {p : MountPoint} (h : Copies source target copied rows first copy clones last)
    (hskip : p.flags.has MS_UNBINDABLE = false → source <+: p.target → copy p.parent = none) :
    Copies source target copied (p :: rows) first copy clones last :=
  { h with
    other := fun i hi => h.other i fun q hq => hi q (by simp [hq])
    sound := fun a ha => by
      obtain ⟨r, hr, hcopy⟩ := h.sound a ha
      exact ⟨r, by simp [hr], hcopy⟩
    complete := fun r hr hbindable hbelow hparent => by
      rcases List.mem_cons.mp hr with rfl | hr
      · exact absurd (hskip hbindable hbelow) hparent
      · exact h.complete r hr hbindable hbelow hparent }

/-- A row that is copied. -/
theorem Copies.take {below : Path} {p a : MountPoint}
    (h : Copies source target ((p.id, a.id) :: copied) rows (a.id + 1) copy clones last)
    (hnew : copied.lookup p.id = none) (hself : p.parent ≠ p.id)
    (hparent : copied.lookup p.parent = some a.parent) (holder : a.parent < a.id)
    (hbindable : p.flags.has MS_UNBINDABLE = false) (htarget : p.target = source ++ below)
    (hsource : a.source = p.source) (hflags : a.flags = p.flags)
    (htarget' : a.target = target ++ below) :
    Copies source target copied (p :: rows) a.id copy (a :: clones) last := by
  have hlookup : ∀ i : Nat, i ≠ p.id → ((p.id, a.id) :: copied).lookup i = copied.lookup i := by
    intro i hi
    rw [List.lookup_cons, beq_false_of_ne hi]
  have hextend : ∀ i k : Nat, copied.lookup i = some k → copy i = some k := by
    intro i k hk
    have hi : i ≠ p.id := by
      rintro rfl
      rw [hnew] at hk
      cases hk
    exact h.extend i k (by rw [hlookup i hi, hk])
  have hid : copy p.id = some a.id := h.extend p.id a.id (by simp)
  have hcopy : CopyOf source target copy p a :=
    ⟨hbindable, hid, hextend _ _ hparent, holder, hsource, hflags, below, htarget, htarget'⟩
  have hgrows := h.grows
  refine ⟨by omega, hextend, fun i hi => ?_, fun i k hk => ?_, h.injective, fun b hb => ?_,
    List.pairwise_cons.mpr ⟨fun b hb => ?_, h.sorted⟩, fun b hb => ?_, fun r hr => ?_⟩
  · rw [h.other i fun q hq => hi q (by simp [hq]), hlookup i (hi p (by simp)).symm]
  · by_cases hi : i = p.id
    · rw [hi, hid] at hk
      exact .inr ⟨a, by simp, Option.some.inj hk⟩
    · rcases h.values i k hk with hold | ⟨b, hb, hbk⟩
      · exact .inl (by rwa [hlookup i hi] at hold)
      · exact .inr ⟨b, by simp [hb], hbk⟩
  · rcases List.mem_cons.mp hb with rfl | hb
    · exact ⟨Nat.le_refl _, by omega⟩
    · have hbounds := h.bounds b hb
      omega
  · have hbounds := h.bounds b hb
    omega
  · rcases List.mem_cons.mp hb with rfl | hb
    · exact ⟨p, by simp, hcopy⟩
    · obtain ⟨r, hr, hcopy'⟩ := h.sound b hb
      exact ⟨r, by simp [hr], hcopy'⟩
  · intro hrbindable hrbelow hrparent
    rcases List.mem_cons.mp hr with rfl | hr
    · exact ⟨a, by simp, hcopy⟩
    · obtain ⟨b, hb, hcopy'⟩ := h.complete r hr hrbindable hrbelow hrparent
      exact ⟨b, by simp [hb], hcopy'⟩

theorem copyMounts_spec (h : copyMounts source target rows copied first = .ok (clones, last))
    (hdistinct : rows.Pairwise fun p q => p.id ≠ q.id)
    (horder : rows.Pairwise fun p q => p.parent ≠ q.id) (hself : ∀ p ∈ rows, p.parent ≠ p.id)
    (hnew : ∀ p ∈ rows, copied.lookup p.id = none)
    (hlt : ∀ i k : Nat, copied.lookup i = some k → k < first)
    (hinjective : ∀ i j k : Nat, copied.lookup i = some k → copied.lookup j = some k → i = j) :
    ∃ copy : Nat → Option Nat, Copies source target copied rows first copy clones last := by
  induction rows generalizing copied first clones last with
  | nil =>
    cases h
    exact ⟨fun i => copied.lookup i, Nat.le_refl _, fun _ _ hk => hk, fun _ _ => rfl, fun _ _ hk => .inl hk,
      hinjective, nofun, .nil, nofun, nofun⟩
  | cons p rows ih =>
    rw [List.pairwise_cons] at hdistinct horder
    have hselfs : ∀ q ∈ rows, q.parent ≠ q.id := fun q hq => hself q (by simp [hq])
    have hnews : ∀ q ∈ rows, copied.lookup q.id = none := fun q hq => hnew q (by simp [hq])
    rw [copyMounts] at h
    split at h
    · next hunbindable =>
      obtain ⟨copy, hcopies⟩ := ih h hdistinct.2 horder.2 hselfs hnews hlt hinjective
      refine ⟨copy, hcopies.skip fun hbindable => ?_⟩
      rw [hbindable] at hunbindable
      cases hunbindable
    · next hbindable =>
      split at h
      · next parent below hparent hbelow =>
        rw [suffix_eq_some] at hbelow
        simp only [Library.bind_ok, Prod.exists] at h
        obtain ⟨cloneId, next, halloc, clones', last', hrest, h⟩ := h
        obtain ⟨rfl, rfl, -⟩ := allocateId_ok halloc
        cases h
        have hne : ∀ q ∈ rows, (q.id == p.id) = false := fun q hq =>
          beq_false_of_ne (hdistinct.1 q hq).symm
        obtain ⟨copy, hcopies⟩ := ih hrest hdistinct.2 horder.2 hselfs
          (fun q hq => by rw [List.lookup_cons, hne q hq]; exact hnews q hq)
          (fun i k hk => by
            rw [List.lookup_cons] at hk
            split at hk
            · cases hk
              omega
            · have := hlt i k hk
              omega)
          (fun i j k hi hj => by
            rw [List.lookup_cons] at hi hj
            split at hi <;> split at hj
            · next hi' _ hj' => exact (eq_of_beq hi').trans (eq_of_beq hj').symm
            · cases hi
              exact absurd (hlt j _ hj) (Nat.lt_irrefl _)
            · cases hj
              exact absurd (hlt i _ hi) (Nat.lt_irrefl _)
            · exact hinjective i j k hi hj)
        exact ⟨copy, Copies.take (a := ⟨p.metadata.clonedForAttachment, cloneId, parent,
          p.source, target ++ below, p.flags⟩) hcopies (hnew p (by simp))
          (hself p (by simp)) hparent (hlt _ _ hparent) (by simpa using hbindable) hbelow
          rfl rfl rfl⟩
      · next hnone =>
        obtain ⟨copy, hcopies⟩ := ih h hdistinct.2 horder.2 hselfs hnews hlt hinjective
        refine ⟨copy, hcopies.skip fun _ hbelow => ?_⟩
        rw [hcopies.other p.parent fun q hq => (horder.1 q hq).symm]
        cases hparent : copied.lookup p.parent with
        | none => rfl
        | some parent =>
          obtain ⟨below, hbelow⟩ := hbelow
          exact absurd (suffix_eq_some.mpr hbelow.symm) (hnone parent below hparent)

theorem copyMounts_append {pre post : List MountPoint}
    (hpre : ∀ p ∈ pre, copied.lookup p.parent = none) :
    copyMounts source target (pre ++ post) copied first =
      copyMounts source target post copied first := by
  induction pre with
  | nil => rfl
  | cons p pre ih =>
    have hrest := ih fun q hq => hpre q (by simp [hq])
    rw [List.cons_append, copyMounts, hpre p (by simp), hrest]
    simp

end Kinakaze.Mount
