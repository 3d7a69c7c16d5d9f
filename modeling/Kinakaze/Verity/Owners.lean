import Kinakaze.Verity.Recovery

/-!
# What an owner knows

* `OwnerOk`: the owner's status against what is visible and what is durable.
* `write_tree`, `commitFlush_owned`: what is written for it.
-/

namespace Kinakaze.Verity.Transaction

open Library Descriptor

variable {sha : Sha} {data : Bytes}

/-- The part of it that depends on the status. -/
def StatusOk (v : Volume) (o : Owner) : Prop :=
  match o.status with
  | .prepared => o.record.phase = .preparing ∧ v.All Disk.apply (·.record = some o.record)
  | .built => o.record.phase = .built ∧ v.pending = [] ∧ (visible v).record = some o.record
  | .published => o.record.phase = .enabled ∧ (visible v).record = some o.record
  | .committed =>
    o.record.phase = .enabled ∧ v.pending = [] ∧ (visible v).record = some o.record
  | .aborted => (visible v).record = none ∧ v.pending = []
  | .indeterminate => ∀ r, (visible v).record = some r → r.transaction = o.record.transaction

structure OwnerOk (data : Bytes) (v : Volume) (o : Owner) : Prop where
  record : RecordOk data o.record
  status : StatusOk v o

/-- The owner, and the volume it works on. -/
structure Owned (sha : Sha) (data : Bytes) (a : Action) : Prop where
  volume : VolumeOk sha data a.2
  owner : OwnerOk data a.2 a.1

variable {r : Record}

theorem not_enabled_of {d : Disk} (hr : d.record = some r) (hphase : r.phase ≠ .enabled) :
    ¬ Enabled d := by
  rintro ⟨r', hr', henabled⟩
  rw [hr, Option.some_inj] at hr'
  exact hphase (hr' ▸ henabled)

variable {v : Volume} {o : Owner}

theorem OwnerOk.transaction (h : OwnerOk data v o)
    (hr : (visible v).record = some r) : r.transaction = o.record.transaction := by
  have hstatus := h.status
  unfold StatusOk at hstatus
  split at hstatus
  · rw [hstatus.2.visible, Option.some_inj] at hr
    rw [hr]
  · rw [hstatus.2.2, Option.some_inj] at hr
    rw [hr]
  · rw [hstatus.2, Option.some_inj] at hr
    rw [hr]
  · rw [hstatus.2.2, Option.some_inj] at hr
    rw [hr]
  · rw [hstatus.1] at hr
    cases hr
  · exact hstatus r hr

theorem OwnerOk.unsure (hr : RecordOk data r)
    (h : ∀ r', (visible v).record = some r' → r'.transaction = r.transaction) :
    OwnerOk data v ⟨r, .indeterminate⟩ := ⟨hr, h⟩

/-! ## Building -/

theorem write_tree (hv : VolumeOk sha data v) (ho : OwnerOk data v o)
    (hstatus : o.status = .prepared) {writes : List Change}
    (hwrites : ∀ c ∈ writes, ∃ offset value, c = .write offset value ∧ data.length ≤ offset) :
    VolumeOk sha data (v.addAll writes) ∧
      (v.addAll writes).All Disk.apply (·.record = some o.record) := by
  have hprepared := ho.status
  unfold StatusOk at hprepared
  rw [hstatus] at hprepared
  obtain ⟨hphase, hrecord⟩ := hprepared
  have hall : (v.addAll writes).All Disk.apply fun d =>
      Safe sha data d ∧ d.record = some o.record := by
    refine (hv.all.and hrecord).addAll fun d c hc hd => ?_
    obtain ⟨offset, value, rfl, hoffset⟩ := hwrites c hc
    exact ⟨hd.1.write hd.2 hphase hoffset value, hd.2⟩
  have hmarked := hall.mono fun d hd => hd.2
  refine ⟨⟨hall.mono fun d hd => hd.1, fun _ => ?_⟩, hmarked⟩
  exact hmarked.mono fun d hd => not_enabled_of hd (by rw [hphase]; decide)

section

variable (h : Owned sha data (o, v))
include h

theorem build_owned (run : BuildRun) : Owned sha data (buildTree sha o v run) := by
  obtain ⟨hv, ho⟩ := h
  unfold buildTree
  split
  · exact ⟨hv, ho⟩
  · next hstart =>
    have hstatus : o.status = .prepared := by
      by_contra hne
      exact hstart (by simp [hne])
    have hprepared := ho.status
    unfold StatusOk at hprepared
    rw [hstatus] at hprepared
    obtain ⟨hphase, hrecord⟩ := hprepared
    have hsafe := hv.all.visible
    have hseen := hrecord.visible
    obtain ⟨algorithm, blockSize, salt, made⟩ := hsafe.preparing _ hseen hphase
    obtain ⟨built, reads, log, root, hbuild, made', hfaithful⟩ := made.build_faithful sha
    have hsize : o.record.descriptor.dataSize = data.length := ho.record.dataSize
    have hdata : (visible v).data data.length = data := hsafe.data_eq
    dsimp only
    rw [hsize, hdata, hbuild]
    have hpos : 0 < blockSize := by
      have hblock := (not_refused.mp made.accepted).2.1
      omega
    have htree : TreeOf sha data built log := ⟨blockSize, reads, hpos, hfaithful⟩
    have hwrites : ∀ c ∈ treeWrites o.record.treeOffset log,
        ∃ offset value, c = .write offset value ∧ data.length ≤ offset := by
      intro c hc
      obtain ⟨block, _, i, _, rfl⟩ := mem_treeWrites.mp hc
      have hoffset : data.length ≤ o.record.treeOffset := ho.record.treeOffset
      exact ⟨_, _, rfl, by omega⟩
    dsimp only
    cases hbytes : run.bytes with
    | some bytes =>
      obtain ⟨hv', hall⟩ := write_tree hv ho hstatus
        fun c (hc : c ∈ (treeWrites o.record.treeOffset log).take bytes) =>
          hwrites c (List.mem_of_mem_take hc)
      refine ⟨hv', ho.record, ?_⟩
      unfold StatusOk
      rw [hstatus]
      exact ⟨hphase, hall⟩
    | none =>
      obtain ⟨hv', hall⟩ := write_tree hv ho hstatus hwrites
      dsimp only
      split
      · refine ⟨hv', ho.record, ?_⟩
        unfold StatusOk
        rw [hstatus]
        exact ⟨hphase, hall⟩
      have hflushed := hv'.flush
      have hmarked : (visible (flush (v.addAll (treeWrites o.record.treeOffset log)))).record =
          some o.record := hall.visible
      split
      · refine ⟨hflushed, ho.record, ?_⟩
        unfold StatusOk
        rw [hstatus]
        exact ⟨hphase, .flush hmarked⟩
      have hr : RecordOk data { o.record with phase := .built, descriptor := built } :=
        ⟨made'.dataSize_eq, ho.record.treeOffset, (made.treeSize_eq made').trans ho.record.treeSize⟩
      have hcomplete : Complete sha data
          (visible (flush (v.addAll (treeWrites o.record.treeOffset log))))
          { o.record with phase := .built, descriptor := built } := by
        refine ⟨log, htree, ?_⟩
        rw [show visible (flush (v.addAll (treeWrites o.record.treeOffset log))) =
          (treeWrites o.record.treeOffset log).foldl Disk.apply (visible v) from
          Storage.visible_addAll _]
        exact htree.inPlace _ _
      have hadd : VolumeOk sha data ((flush (v.addAll (treeWrites o.record.treeOffset log))).add
            (.record (some { o.record with phase := .built, descriptor := built }))) := by
        refine hflushed.add (.flush ?_) fun _ => ⟨?_, .flush ?_⟩
        · exact hflushed.all.visible.mark hr nofun fun _ => hcomplete
        · exact not_enabled_of hmarked (by rw [hphase]; decide)
        · exact not_enabled_of rfl nofun
      have hwritten := hflushed.change hadd run.write
      have hseen' : ∀ r', (visible (change (flush (v.addAll (treeWrites o.record.treeOffset log)))
          (.record (some { o.record with phase := .built, descriptor := built }))
          run.write)).record = some r' → r'.transaction = o.record.transaction := by
        intro r' hr'
        rw [visible_change] at hr'
        split at hr'
        · cases hr'
          rfl
        · rw [hmarked, Option.some_inj] at hr'
          rw [← hr']
      split
      · exact ⟨hwritten, .unsure ho.record hseen'⟩
      · next hdone =>
        have hwrite : run.write = .done := not_not.mp hdone
        split
        · exact ⟨hwritten, .unsure hr hseen'⟩
        refine ⟨hwritten.flush, hr, rfl, rfl, ?_⟩
        rw [hwrite]
        show (visible (change _ _ .done)).record = _
        rw [visible_change]
        rfl

/-! ## Publishing -/

theorem commitFlush_owned (hstatus : o.status = .published) (run : CommitRun) :
    Owned sha data (commitFlush o v run) := by
  unfold commitFlush
  split
  · have hpublished := h.owner.status
    unfold StatusOk at hpublished
    dsimp only at hpublished
    rw [hstatus] at hpublished
    exact ⟨h.volume.flush, h.owner.record, hpublished.1, rfl, hpublished.2⟩
  · exact h

theorem commit_owned (run : CommitRun) : Owned sha data (commit o v run) := by
  obtain ⟨hv, ho⟩ := id h
  have hr : RecordOk data o.record := ho.record
  unfold commit
  split
  · exact h
  split
  · next hstatus =>
    have hbuilt := ho.status
    unfold StatusOk at hbuilt
    dsimp only at hbuilt
    rw [hstatus] at hbuilt
    obtain ⟨hphase, hnil, hseen⟩ := hbuilt
    split
    · exact h
    split
    · refine ⟨hv, .unsure hr fun r hr' => ?_⟩
      rw [hseen, Option.some_inj] at hr'
      rw [hr']
    · next hpresent =>
      split
      · exact h
      have hall := (hv.all.visible.built _ hseen hphase).2 (by simpa using hpresent)
      have hadd : VolumeOk sha data
          (v.add (.record (some { o.record with phase := .enabled }))) := by
        refine VolumeOk.add hv (.of_nil hnil ?_) fun hnot => ?_
        · exact hv.all.visible.mark { hr with } nofun fun _ => hall
        · exact absurd ⟨_, rfl, rfl⟩ hnot
      have hwritten := VolumeOk.change hv hadd run.write
      dsimp only
      split
      · next hdone =>
        have henabled : (visible (change v
            (.record (some { o.record with phase := .enabled })) run.write)).record =
              some { o.record with phase := .enabled } := by
          rw [hdone, visible_change]
          rfl
        have howned : Owned sha data (⟨{ o.record with phase := .enabled }, .published⟩,
            change v (.record (some { o.record with phase := .enabled })) run.write) :=
          ⟨hwritten, { hr with }, rfl, henabled⟩
        exact commitFlush_owned howned rfl run
      have hseen' : ∀ r, (visible (change v
          (.record (some { o.record with phase := .enabled })) run.write)).record =
            some r → r = { o.record with phase := .enabled } ∨
              (r = o.record ∧ run.write.landed = false) := by
        intro r hr'
        rw [visible_change] at hr'
        split at hr'
        · cases hr'
          exact .inl rfl
        · next hlanded =>
          rw [hseen, Option.some_inj] at hr'
          exact .inr ⟨hr'.symm, by simpa using hlanded⟩
      have hsame : ∀ r, (visible (change v
          (.record (some { o.record with phase := .enabled })) run.write)).record =
            some r → r.transaction = o.record.transaction := by
        intro r hr'
        rcases hseen' r hr' with rfl | ⟨rfl, -⟩
        · rfl
        · rfl
      split
      · exact ⟨hwritten, .unsure hr hsame⟩
      · next r hread =>
        split
        · refine ⟨hwritten, ?_, ?_⟩
          · rcases hseen' r hread with rfl | ⟨rfl, -⟩
            · exact { hr with }
            · exact hr
          · rcases hseen' r hread with rfl | ⟨rfl, hlanded⟩
            · exact ⟨rfl, hread⟩
            · have hkept : change v (.record (some { o.record with phase := .enabled }))
                  run.write = v := by
                unfold change
                rw [hlanded]
                rfl
              rw [hkept]
              unfold StatusOk
              dsimp only
              rw [hphase]
              exact ⟨rfl, hnil, hseen⟩
        · exact ⟨hwritten, .unsure hr hsame⟩
  · split
    · next hstatus =>
      split
      · exact h
      · exact commitFlush_owned h hstatus run
    · exact h

/-! ## Rolling back -/

theorem abort_owned (run : AbortRun) : Owned sha data (abort o v run) := by
  obtain ⟨hv, ho⟩ := id h
  unfold abort
  split
  · exact h
  split
  · next hnone =>
    split
    · exact h
    · split
      · exact h
      · exact ⟨hv.flush, ho.record, hnone, rfl⟩
  · next r hseen =>
    split
    · exact h
    · next htransaction =>
      split
      · next hphase => exact ⟨hv, hv.all.visible.recordOk r hseen, hphase, hseen⟩
      · next hphase =>
        have hrecovered := recover_ok hv hseen hphase run.rollback
        cases hdone : (recover v r run.rollback).2 with
        | true =>
          dsimp only
          rw [hdone] at hrecovered ⊢
          exact ⟨hrecovered.ok, ho.record, hrecovered.finished rfl⟩
        | false =>
          dsimp only
          rw [hdone] at hrecovered ⊢
          refine ⟨hrecovered.ok, .unsure ho.record fun r' hr' => ?_⟩
          rcases hrecovered.record with hsame | hnone
          · rw [hr', Option.some_inj] at hsame
            rw [hsame]
            exact not_not.mp htransaction
          · rw [hr'] at hnone
            cases hnone

theorem reconcile_owned (early flushed : Bool) : Owned sha data (reconcile o v early flushed) := by
  obtain ⟨hv, ho⟩ := id h
  unfold reconcile
  split
  · exact h
  split
  · next hnone =>
    split
    · exact h
    · split
      · exact h
      · exact ⟨hv.flush, ho.record, hnone, rfl⟩
  · next r hseen =>
    have hr := hv.all.visible.recordOk r hseen
    have hunsure : Owned sha data (⟨r, .indeterminate⟩, v) := by
      refine ⟨hv, .unsure hr fun r' hr' => ?_⟩
      rw [show (visible v).record = some r from hseen, Option.some_inj] at hr'
      rw [hr']
    split
    · exact h
    dsimp only
    split
    · next hphase =>
      split
      · exact ⟨hv.flush, hr, hphase, .flush hseen⟩
      · exact hunsure
    · next hphase =>
      split
      · exact hunsure
      · exact ⟨hv.flush, hr, hphase, rfl, hseen⟩
    · next hphase => exact ⟨hv, hr, hphase, hseen⟩

theorem act_owned (call : OwnerCall) : Owned sha data (act sha o v call) := by
  cases call with
  | build run => exact build_owned h run
  | commit run => exact commit_owned h run
  | abort run => exact abort_owned h run
  | reconcile early flushed => exact reconcile_owned h early flushed

end

end Kinakaze.Verity.Transaction
