import Kinakaze.Verity.Owners

/-!
# Enabling is safe against crashes

* `Inv.step`: one call, the death of an owner, or a crash.
* `step_enabled`, `act_kept`: what no call changes.
* `abort_done`, `resume_done`: an unfinished transaction can be rolled back.
-/

namespace Kinakaze.Verity.Transaction

open Library Descriptor

variable {sha : Sha} {data : Bytes}

/-- What calls, deaths and crashes keep. -/
structure Inv (sha : Sha) (data : Bytes) (s : State) : Prop where
  volume : VolumeOk sha data s.volume
  owner : ∀ o, s.owner = some o → OwnerOk data s.volume o

/-! ## The steps -/

variable {r : Record}

theorem makeRecord_ok {transaction : Nat} {d : Descriptor}
    (h : makeRecord .preparing transaction d = .ok r) (hpos : 0 < d.blockSize) :
    r.phase = .preparing ∧ r.descriptor = d ∧ d.dataSize ≤ r.treeOffset ∧
      d.treeSize = .ok r.treeSize := by
  unfold makeRecord at h
  obtain ⟨treeSize, hsize, h⟩ := bind_ok.mp h
  split at h
  · cases h
  · cases h
    refine ⟨rfl, rfl, ?_, hsize⟩
    have hdiv := Nat.div_add_mod (d.dataSize + (d.blockSize - 1)) d.blockSize
    have hmod := Nat.mod_lt (d.dataSize + (d.blockSize - 1)) hpos
    rw [Nat.mul_comm] at hdiv
    dsimp only
    omega

theorem prepared_record {algorithm blockSize transaction : Nat} {salt : Bytes}
    (h : new algorithm blockSize salt data.length >>= makeRecord .preparing transaction = .ok r) :
    r.phase = .preparing ∧ RecordOk data r ∧ Fresh data r := by
  obtain ⟨d, hnew, hmake⟩ := bind_ok.mp h
  have hrefused : ¬ Refused algorithm blockSize salt data.length := by
    intro hrefused
    rw [new, dif_pos hrefused] at hnew
    cases hnew
  obtain ⟨d', hnew', made⟩ := new_made hrefused
  rw [hnew, Except.ok.injEq] at hnew'
  subst hnew'
  have hpos : 0 < d.blockSize := by
    rw [made.blockSize_eq]
    have hblock := (not_refused.mp hrefused).2.1
    omega
  obtain ⟨hphase, hdescriptor, hoffset, hsize⟩ := makeRecord_ok hmake hpos
  rw [made.dataSize_eq] at hoffset
  refine ⟨hphase, ⟨?_, hoffset, ?_⟩, algorithm, blockSize, salt, ?_⟩
  · rw [hdescriptor, made.dataSize_eq]
  · rw [hdescriptor, hsize]
  · rw [hdescriptor]
    exact made

variable {v : Volume}

theorem recover_enabled (h : r.phase = .enabled) (run : Rollback) :
    recover v r run = (v, false) := if_pos h

theorem settle_ok (h : VolumeOk sha data v) (run : Rollback) : VolumeOk sha data (settle v run).1 ∧
      ((settle v run).2 → (visible (settle v run).1).record = none) := by
  unfold settle
  split
  · next hrecord => exact ⟨h, fun _ => hrecord⟩
  · next r hrecord =>
    by_cases hphase : r.phase = .enabled
    · rw [recover_enabled hphase]
      exact ⟨h, nofun⟩
    · have hrecovered := recover_ok h hrecord hphase run
      exact ⟨hrecovered.ok, fun hdone => (hrecovered.finished hdone).1⟩

namespace Inv

variable {s : State}

theorem unowned (h : VolumeOk sha data v) : Inv sha data ⟨v, none⟩ := ⟨h, nofun⟩

theorem prepare (h : Inv sha data s) (algorithm blockSize : Nat) (salt : Bytes) (transaction : Nat)
    (run : PrepareRun) :
    Inv sha data (Transaction.prepare s algorithm blockSize salt transaction run) := by
  unfold Transaction.prepare
  split
  · exact h
  · next hstart =>
    have hnone : s.owner = none := by
      cases howner : s.owner with
      | none => rfl
      | some o =>
        rw [howner] at hstart
        exact absurd rfl hstart
    obtain ⟨hv, hfree⟩ := settle_ok h.volume run.rollback
    generalize settle s.volume run.rollback = result at hv hfree ⊢
    obtain ⟨v, ready⟩ := result
    dsimp only at hv hfree ⊢
    have hkept : Inv sha data { s with volume := v } := by
      rw [hnone]
      exact unowned hv
    split
    · exact hkept
    · next hgo =>
      have hrecord : (visible v).record = none := hfree (by
        cases ready with
        | true => rfl
        | false => exact absurd rfl hgo)
      rw [hv.all.visible.free hrecord]
      split
      · exact hkept
      · next r hmake =>
        obtain ⟨hphase, hr, hfresh⟩ := prepared_record hmake
        have hadd : VolumeOk sha data (v.add (.record (some r))) := by
          refine hv.add (hv.all.mono fun d hd => ?_) fun _ => ⟨?_, fun kept _ => ?_⟩
          · exact hd.mark hr (fun _ => hfresh) fun hne => absurd hphase hne
          · rintro ⟨r', hr', -⟩
            rw [hrecord] at hr'
            cases hr'
          · exact not_enabled_of rfl (by rw [hphase]; decide)
        have hwritten := hv.change hadd run.write
        split
        · rw [hnone]
          exact unowned hwritten
        · next hdone =>
          have hwrite : run.write = .done := by
            by_contra hne
            exact hdone (by simp [hne])
          refine ⟨hwritten.flush, fun o ho => ?_⟩
          cases ho
          refine ⟨hr, hphase, .flush ?_⟩
          rw [hwrite]
          show (visible (Transaction.change v (.record (some r)) .done)).record = some r
          rw [visible_change]
          rfl

theorem resume (h : Inv sha data s) (expected : Nat) (run : ResumeRun) :
    Inv sha data (Transaction.resume s expected run) := by
  unfold Transaction.resume
  split
  · exact h
  split
  · exact h
  · next r hseen =>
    have hr := h.volume.all.visible.recordOk r hseen
    split
    · exact h
    split
    · next hphase =>
      split
      · refine ⟨h.volume.flush, fun o ho => ?_⟩
        cases ho
        exact ⟨hr, hphase, .flush hseen⟩
      · exact h
    · next hphase =>
      split
      · split
        · refine ⟨h.volume.flush, fun o ho => ?_⟩
          cases ho
          exact ⟨hr, hphase, rfl, hseen⟩
        · exact h
      · refine ⟨h.volume, fun o ho => ?_⟩
        cases ho
        refine .unsure hr fun r' hr' => ?_
        rw [show (visible s.volume).record = some r from hseen, Option.some_inj] at hr'
        rw [hr']
    · next hphase =>
      refine ⟨h.volume, fun o ho => ?_⟩
      cases ho
      exact ⟨hr, hphase, hseen⟩

theorem ensureWritable (h : Inv sha data s) (early : Bool) (run : Rollback) :
    Inv sha data (Transaction.ensureWritable s early run) := by
  unfold Transaction.ensureWritable
  split
  · exact h
  · next hstart =>
    have hnone : s.owner = none := by
      cases howner : s.owner with
      | none => rfl
      | some o =>
        rw [howner] at hstart
        exact absurd rfl hstart
    split
    · exact h
    · next r hseen =>
      rw [hnone]
      by_cases hphase : r.phase = .enabled
      · rw [recover_enabled hphase]
        exact unowned h.volume
      · exact unowned (recover_ok h.volume hseen hphase run).ok

theorem step (h : Inv sha data s) (call : Call) : Inv sha data (s.step sha call) := by
  cases call with
  | prepare algorithm blockSize salt transaction run =>
    exact h.prepare algorithm blockSize salt transaction run
  | resume expected run => exact h.resume expected run
  | ensureWritable early run => exact h.ensureWritable early run
  | die => exact unowned h.volume
  | crash kept => exact unowned (h.volume.crash kept)
  | owner call =>
    unfold State.step
    dsimp only
    split
    · exact h
    · next o ho =>
      have howned := act_owned ⟨h.volume, h.owner o ho⟩ call
      refine ⟨howned.volume, fun o' ho' => ?_⟩
      cases ho'
      exact howned.owner

end Inv

/-! ## What no call changes -/

variable {o : Owner}

theorem required_eq_false {phase : Phase} (hr : (visible v).record = some r)
    (h : r.transaction ≠ o.record.transaction ∨ r.phase ≠ phase) : required v o phase = false := by
  unfold required
  rw [hr]
  refine decide_eq_false ?_
  rintro ⟨htransaction, hphase, -⟩
  rcases h with hne | hne
  · exact hne htransaction
  · exact hne hphase

theorem act_kept (hr : (visible v).record = some r)
    (h : r.transaction ≠ o.record.transaction ∨ r.phase = .enabled) (call : OwnerCall) :
    visible (act sha o v call).2 = visible v := by
  cases call with
  | build run =>
    have hrequired : required v o .preparing = false := by
      refine required_eq_false hr (h.imp_right fun henabled => ?_)
      rw [henabled]
      decide
    show visible (buildTree sha o v run).2 = _
    unfold buildTree
    rw [hrequired, if_pos (by simp)]
  | commit run =>
    have hrequired : required v o .built = false := by
      refine required_eq_false hr (h.imp_right fun henabled => ?_)
      rw [henabled]
      decide
    show visible (commit o v run).2 = _
    unfold commit
    split
    · rfl
    split
    · rw [hrequired]
      rfl
    split
    · split
      · rfl
      · unfold commitFlush
        split <;> rfl
    · rfl
  | abort run =>
    show visible (abort o v run).2 = _
    unfold abort
    split
    · rfl
    rw [hr]
    dsimp only
    split
    · rfl
    · next hsame =>
      have henabled : r.phase = .enabled := h.resolve_left hsame
      rw [if_pos henabled]
  | reconcile early flushed =>
    show visible (reconcile o v early flushed).2 = _
    unfold reconcile
    split
    · rfl
    rw [hr]
    dsimp only
    split
    · rfl
    split
    · split <;> rfl
    · split <;> rfl
    · rfl

variable {s : State}

theorem step_enabled (h : Enabled (visible s.volume)) {call : Call}
    (hcall : ∀ kept, call ≠ .crash kept) : visible (s.step sha call).volume = visible s.volume := by
  obtain ⟨r, hr, hphase⟩ := h
  cases call with
  | prepare algorithm blockSize salt transaction run =>
    show visible (prepare s algorithm blockSize salt transaction run).volume = _
    unfold prepare
    split
    · rfl
    have hsettle : settle s.volume run.rollback = (s.volume, false) := by
      unfold settle
      rw [hr]
      exact recover_enabled hphase _
    rw [hsettle]
    rfl
  | resume expected run =>
    show visible (resume s expected run).volume = _
    unfold resume
    split
    · rfl
    rw [hr]
    dsimp only
    split
    · rfl
    · rw [hphase]
  | ensureWritable early run =>
    show visible (ensureWritable s early run).volume = _
    unfold ensureWritable
    split
    · rfl
    · rw [hr]
      dsimp only
      rw [recover_enabled hphase]
  | die => rfl
  | crash kept => exact absurd rfl (hcall kept)
  | owner call =>
    unfold State.step
    dsimp only
    split
    · rfl
    · next o _ => exact act_kept hr (.inr hphase) call

/-! ## Rolling back to the file that was there -/

theorem recover_done (h : r.phase ≠ .enabled) : (recover v r {}).2 = true := by
  unfold recover
  rw [if_neg h]
  rfl

/-- What is there after a rollback: no record, and the length of the data. -/
def RolledBack (data : Bytes) (a : Action) : Prop :=
  a.1.status = .aborted ∧ (visible a.2).record = none ∧ (visible a.2).length = data.length

theorem abort_record (hr : (visible v).record = some r)
    (htransaction : r.transaction = o.record.transaction) (hphase : r.phase ≠ .enabled)
    (hopen : ¬ (o.status = .published ∨ o.status = .committed ∨ o.status = .aborted)) :
    (abort o v {}).1.status = .aborted := by
  unfold abort
  rw [if_neg (by simpa using hopen), hr]
  dsimp only
  rw [if_neg (not_not.mpr htransaction), if_neg hphase, recover_done hphase]
  rfl

theorem abort_done (h : Owned sha data (o, v))
    (hnot : ¬ Enabled (visible v)) : RolledBack data (abort o v {}) := by
  have howned := abort_owned h {}
  suffices hdone : (abort o v {}).1.status = .aborted by
    have hstatus := howned.owner.status
    unfold StatusOk at hstatus
    rw [hdone] at hstatus
    exact ⟨hdone, hstatus.1, howned.volume.all.visible.free hstatus.1⟩
  have hstatus := h.owner.status
  unfold StatusOk at hstatus
  dsimp only at hstatus
  have of_record : ∀ r, (visible v).record = some r →
      ¬ (o.status = .published ∨ o.status = .committed ∨ o.status = .aborted) →
        (abort o v {}).1.status = .aborted := fun r hr hopen =>
    abort_record hr (h.owner.transaction hr) (fun henabled => hnot ⟨r, hr, henabled⟩) hopen
  cases ho : o.status with
  | published =>
    rw [ho] at hstatus
    exact absurd ⟨_, hstatus.2, hstatus.1⟩ hnot
  | committed =>
    rw [ho] at hstatus
    exact absurd ⟨_, hstatus.2.2, hstatus.1⟩ hnot
  | aborted =>
    unfold abort
    rw [if_pos (.inr (.inr (.inl ho)))]
    exact ho
  | prepared =>
    rw [ho] at hstatus
    exact of_record _ hstatus.2.visible (by simp [ho])
  | built =>
    rw [ho] at hstatus
    exact of_record _ hstatus.2.2 (by simp [ho])
  | indeterminate =>
    cases hrecord : (visible v).record with
    | none =>
      have hlength : (visible v).length = o.record.descriptor.dataSize :=
        (h.volume.all.visible.free hrecord).trans h.owner.record.dataSize.symm
      unfold abort
      rw [if_neg (by simp [ho]), hrecord]
      dsimp only
      rw [if_neg (by simp [ho, hlength])]
      rfl
    | some r => exact of_record r hrecord (by simp [ho])

theorem resume_done (h : Inv sha data s) (hnone : s.owner = none)
    (hr : (visible s.volume).record = some r) (hphase : r.phase ≠ .enabled) :
    ∃ o, (resume s r.transaction {}).owner = some o ∧
      RolledBack data (abort o (resume s r.transaction {}).volume {}) := by
  have hresumed := h.resume r.transaction {}
  suffices hseen : visible (resume s r.transaction {}).volume = visible s.volume ∧
      ∃ o, (resume s r.transaction {}).owner = some o by
    obtain ⟨hvisible, o, ho⟩ := hseen
    refine ⟨o, ho, abort_done ⟨hresumed.volume, hresumed.owner o ho⟩ ?_⟩
    rw [hvisible]
    exact not_enabled_of hr hphase
  unfold resume
  rw [hnone, hr]
  dsimp only
  rw [if_neg (by simp), if_neg (not_not.mpr rfl)]
  cases hcase : r.phase with
  | preparing => exact ⟨rfl, _, rfl⟩
  | built =>
    dsimp only
    split <;> exact ⟨rfl, _, rfl⟩
  | enabled => exact absurd hcase hphase

/-! ## Runs -/

variable (sha data) in
/-- What holds in every state, be it after a failed call, a death or a crash. -/
structure Lawful (s : State) : Prop where
  size : (visible s.volume).size = data.length
  read : (visible s.volume).data data.length = data
  enabled : ∀ r, (visible s.volume).record = some r → r.phase = .enabled →
    Complete sha data (visible s.volume) r
  masked : (visible s.volume).record = none → (visible s.volume).length = data.length
  kept : Enabled (visible s.volume) → ∀ call, (∀ kept, call ≠ .crash kept) →
    visible (s.step sha call).volume = visible s.volume
  committed : ∀ o, s.owner = some o → o.status = .committed → Enabled s.volume.durable
  others : ∀ o, s.owner = some o → ∀ r, (visible s.volume).record = some r →
    r.transaction ≠ o.record.transaction →
      ∀ call, visible (act sha o s.volume call).2 = visible s.volume
  undone : ∀ o, s.owner = some o → ¬ Enabled (visible s.volume) →
    RolledBack data (abort o s.volume {})
  resumed : s.owner = none → ∀ r, (visible s.volume).record = some r → r.phase ≠ .enabled →
    ∃ o, (resume s r.transaction {}).owner = some o ∧
      RolledBack data (abort o (resume s r.transaction {}).volume {})

theorem Safe.size {d : Disk} (h : Safe sha data d) : d.size = data.length := by
  unfold Disk.size
  split
  · next r hr => exact (h.recordOk r hr).dataSize
  · next hnone => exact h.free hnone

theorem Inv.committed (h : Inv sha data s) (ho : s.owner = some o)
    (hcommitted : o.status = .committed) : Enabled s.volume.durable := by
  have hstatus := (h.owner o ho).status
  unfold StatusOk at hstatus
  rw [hcommitted] at hstatus
  obtain ⟨hphase, hnil, hseen⟩ := hstatus
  rw [visible, Storage.visible, hnil] at hseen
  exact ⟨o.record, hseen, hphase⟩

theorem Inv.lawful (h : Inv sha data s) : Lawful sha data s where
  size := h.volume.all.visible.size
  read := h.volume.all.visible.data_eq
  enabled := h.volume.all.visible.enabled
  masked := h.volume.all.visible.free
  kept := fun henabled _ hcall => step_enabled henabled hcall
  committed := fun _ ho hcommitted => h.committed ho hcommitted
  others := fun _ _ _ hr hne call => act_kept hr (.inl hne) call
  undone := fun o ho hnot => abort_done ⟨h.volume, h.owner o ho⟩ hnot
  resumed := fun hnone _ hr hphase => resume_done h hnone hr hphase

/-- A file with the data and no record. -/
def start (data : Bytes) : State := ⟨{ durable := ⟨data.length, (data.getD · 0), none⟩ }, none⟩

theorem start_inv (sha : Sha) (data : Bytes) : Inv sha data (start data) := by
  have hsafe : Safe sha data (visible (start data).volume) := by
    refine ⟨Nat.le_refl _, ?_, fun _ => rfl, nofun, nofun, nofun, nofun⟩
    refine List.ext_getElem (by simp [Disk.data]) fun i _ hi => ?_
    simp only [Disk.data, List.getElem_map, List.getElem_range]
    exact (List.getElem_eq_getD 0).symm
  refine .unowned ⟨.of_nil rfl hsafe, fun _ => .of_nil rfl ?_⟩
  rintro ⟨r, hr, -⟩
  cases hr

/-- Every run of calls, deaths and crashes from a file without a record. -/
theorem enable_lawful (sha : Sha) (data : Bytes) (calls : List Call) :
    EveryState (State.step sha) (Lawful sha data) (start data) calls := by
  have hinv : EveryState (State.step sha) (Inv sha data) (start data) calls :=
    .of_invariant (fun _ call h => h.step call) calls (start_inv sha data)
  exact hinv.mono fun _ h => h.lawful

end Kinakaze.Verity.Transaction
