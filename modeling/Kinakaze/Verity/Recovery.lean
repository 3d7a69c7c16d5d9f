import Kinakaze.Verity.Transaction

/-!
# What a crash may leave

* `Safe`: a file and a record from which the data can be read and the transaction taken up.
* `VolumeOk`: it is safe whatever a crash keeps.
* `recover_ok`: so also after a rollback, wherever it fails.
-/

namespace Kinakaze.Verity.Transaction

open Library Descriptor

section Safe

variable (sha : Sha) (data : Bytes)

/-- The blocks of a tree are where they were written. -/
def InPlace (d : Disk) (treeOffset : Nat) (log : List (Nat × Bytes)) : Prop :=
  ∀ block ∈ log, ∀ i, (h : i < block.2.length) → d.byte (treeOffset + block.1 + i) = block.2[i]

/-- A tree that proves the data under the descriptor. -/
def TreeOf (descriptor : Descriptor) (log : List (Nat × Bytes)) : Prop :=
  ∃ blockSize reads, 0 < blockSize ∧ Faithful sha blockSize data descriptor reads log

/-- The whole tree of the data is there. -/
def Complete (d : Disk) (r : Record) : Prop :=
  ∃ log, TreeOf sha data r.descriptor log ∧ InPlace d r.treeOffset log

structure RecordOk (r : Record) : Prop where
  dataSize : r.descriptor.dataSize = data.length
  treeOffset : data.length ≤ r.treeOffset
  treeSize : r.descriptor.treeSize = .ok r.treeSize

/-- The descriptor is as `new` made it. -/
def Fresh (r : Record) : Prop :=
  ∃ algorithm blockSize salt, Made algorithm blockSize salt data.length [] r.descriptor

/-- What a crash may leave. -/
structure Safe (d : Disk) : Prop where
  length_ge : data.length ≤ d.length
  data_eq : d.data data.length = data
  free : d.record = none → d.length = data.length
  recordOk : ∀ r, d.record = some r → RecordOk data r
  preparing : ∀ r, d.record = some r → r.phase = .preparing → Fresh data r
  built : ∀ r, d.record = some r → r.phase = .built →
    (∃ log, TreeOf sha data r.descriptor log) ∧ (d.present r → Complete sha data d r)
  enabled : ∀ r, d.record = some r → r.phase = .enabled → Complete sha data d r

def Enabled (d : Disk) : Prop := ∃ r, d.record = some r ∧ r.phase = .enabled

structure VolumeOk (v : Volume) : Prop where
  all : v.All Disk.apply (Safe sha data)
  settled : ¬ Enabled (visible v) → v.All Disk.apply fun d => ¬ Enabled d

end Safe

variable {sha : Sha} {data : Bytes}

/-! ## Bytes of the tree -/

theorem InPlace.of_nil (d : Disk) (treeOffset : Nat) : InPlace d treeOffset [] :=
  nofun

variable {d : Disk}

theorem byte_written {writes : List Change} {position : Nat} {value : BitVec 8}
    (hwrites : ∀ c ∈ writes, ∃ p x, c = .write p x ∧ (p = position → x = value))
    (h : d.byte position = value ∨ .write position value ∈ writes) :
    (writes.foldl Disk.apply d).byte position = value := by
  induction writes generalizing d with
  | nil => exact h.resolve_right List.not_mem_nil
  | cons c rest ih =>
    obtain ⟨p, x, rfl, hagree⟩ := hwrites c List.mem_cons_self
    refine ih (fun c hc => hwrites c (List.mem_cons_of_mem _ hc)) ?_
    by_cases hp : p = position
    · left
      show Function.update d.byte p x position = value
      rw [hp, Function.update_self]
      exact hagree hp
    rcases h with hold | hmem
    · left
      show Function.update d.byte p x position = value
      rw [Function.update_of_ne fun h => hp h.symm]
      exact hold
    · rcases List.mem_cons.mp hmem with heq | hmem
      · cases heq
        exact absurd rfl hp
      · exact .inr hmem

variable {log : List (Nat × Bytes)} {c : Change}

theorem mem_treeWrites {treeOffset : Nat} : c ∈ treeWrites treeOffset log ↔
      ∃ block ∈ log, ∃ i, ∃ h : i < block.2.length, c = .write (treeOffset + block.1 + i) block.2[i] := by
  unfold treeWrites
  rw [List.mem_flatMap]
  constructor
  · rintro ⟨block, hblock, hc⟩
    obtain ⟨i, hi, rfl⟩ := List.mem_mapIdx.mp hc
    exact ⟨block, hblock, i, hi, rfl⟩
  · rintro ⟨block, hblock, i, hi, rfl⟩
    exact ⟨block, hblock, List.mem_mapIdx.mpr ⟨i, hi, rfl⟩⟩

variable {descriptor : Descriptor}

theorem TreeOf.agree (h : TreeOf sha data descriptor log) {b b' : Nat × Bytes} (hb : b ∈ log)
    (hb' : b' ∈ log) {i i' : Nat} (hi : i < b.2.length) (hi' : i' < b'.2.length)
    (hplace : b.1 + i = b'.1 + i') : b.2[i] = b'.2[i'] := by
  obtain ⟨blockSize, reads, hpos, hfaithful⟩ := h
  obtain ⟨count, -, htiles⟩ := hfaithful.tiles
  have hlength := hfaithful.length_block b hb
  have hlength' := hfaithful.length_block b' hb'
  have hmultiple : ∀ block ∈ log, ∃ k, k * blockSize = block.1 := by
    intro block hblock
    have hmem := htiles.mem_iff.mp (List.mem_map_of_mem hblock)
    obtain ⟨k, _, hk⟩ := List.mem_map.mp hmem
    exact ⟨k, hk⟩
  obtain ⟨k, hk⟩ := hmultiple b hb
  obtain ⟨k', hk'⟩ := hmultiple b' hb'
  have hquot : ∀ m j, j < blockSize → (m * blockSize + j) / blockSize = m := by
    intro m j hj
    rw [Nat.add_comm, Nat.add_mul_div_right _ _ hpos, Nat.div_eq_of_lt hj, Nat.zero_add]
  have hsame : k = k' := by
    have hfirst := hquot k i (by omega)
    have hsecond := hquot k' i' (by omega)
    rw [hk, hplace, ← hk', hsecond] at hfirst
    exact hfirst.symm
  subst hsame
  have hoffset : b.1 = b'.1 := hk.symm.trans hk'
  have hnodup : (log.map Prod.fst).Nodup := htiles.nodup_iff.mpr (nodup_tiles hpos)
  obtain ⟨o, bytes⟩ := b
  obtain ⟨o', bytes'⟩ := b'
  obtain rfl : o = o' := hoffset
  have hlookup := lookup_of_mem hnodup hb
  rw [lookup_of_mem hnodup hb', Option.some_inj] at hlookup
  subst hlookup
  obtain rfl : i = i' := by
    dsimp only at hplace
    omega
  rfl

theorem TreeOf.inPlace (h : TreeOf sha data descriptor log) (treeOffset : Nat) (d : Disk) :
    InPlace ((treeWrites treeOffset log).foldl Disk.apply d) treeOffset log := by
  intro block hblock i hi
  refine byte_written (fun c hc => ?_) (.inr (mem_treeWrites.mpr ⟨block, hblock, i, hi, rfl⟩))
  obtain ⟨block', hblock', i', hi', rfl⟩ := mem_treeWrites.mp hc
  refine ⟨_, _, rfl, fun hplace => ?_⟩
  exact h.agree hblock' hblock hi' hi (by omega)

variable {r : Record}

theorem TreeOf.eq_nil (hr : RecordOk data r)
    (h : TreeOf sha data r.descriptor log) (hzero : r.treeSize = 0) : log = [] := by
  obtain ⟨blockSize, reads, hpos, hfaithful⟩ := h
  obtain ⟨count, hsize, htiles⟩ := hfaithful.tiles
  rw [hr.treeSize, hzero] at hsize
  have hcount : count = 0 := by
    have hmul : count * blockSize = 0 := (Except.ok.inj hsize).symm
    exact (Nat.mul_eq_zero.mp hmul).resolve_right hpos.ne'
  rw [hcount] at htiles
  exact List.map_eq_nil_iff.mp htiles.eq_nil

/-! ## One change -/

theorem data_congr {d' : Disk} {size : Nat} (h : ∀ i < size, d'.byte i = d.byte i) :
    d'.data size = d.data size :=
  List.map_congr_left fun i hi => h i (List.mem_range.mp hi)

theorem Safe.write (h : Safe sha data d) (hr : d.record = some r) (hphase : r.phase = .preparing)
    {offset : Nat} (hoffset : data.length ≤ offset)
    (value : BitVec 8) : Safe sha data (d.apply (.write offset value)) where
  length_ge := Nat.le_trans h.length_ge (Nat.le_max_left _ _)
  data_eq := by
    rw [← h.data_eq, h.data_eq]
    refine (data_congr fun i hi => ?_).trans h.data_eq
    exact Function.update_of_ne (by omega) _ _
  free := fun hnone => by
    rw [show d.record = none from hnone] at hr
    cases hr
  recordOk := h.recordOk
  preparing := h.preparing
  built := fun r' hr' hbuilt => by
    rw [show d.record = some r' from hr', Option.some_inj] at hr
    rw [hr, hphase] at hbuilt
    cases hbuilt
  enabled := fun r' hr' henabled => by
    rw [show d.record = some r' from hr', Option.some_inj] at hr
    rw [hr, hphase] at henabled
    cases henabled

theorem Safe.truncate (h : Safe sha data d) (hnot : ¬ Enabled d) :
    Safe sha data (d.apply (.setLength data.length)) where
  length_ge := Nat.le_refl _
  data_eq := (data_congr fun i hi => if_pos hi).trans h.data_eq
  free := fun _ => rfl
  recordOk := h.recordOk
  preparing := h.preparing
  built := fun r hr hbuilt => by
    obtain ⟨⟨log, hlog⟩, -⟩ := h.built r hr hbuilt
    refine ⟨⟨log, hlog⟩, fun hpresent => ?_⟩
    have hok := h.recordOk r hr
    by_cases hzero : r.treeSize = 0
    · refine ⟨log, hlog, ?_⟩
      rw [hlog.eq_nil hok hzero]
      exact .of_nil _ _
    exfalso
    have hoffset := hok.treeOffset
    unfold Disk.present at hpresent
    rw [if_neg hzero] at hpresent
    have hle : r.treeOffset + r.treeSize ≤ data.length := of_decide_eq_true hpresent
    omega
  enabled := fun r hr henabled => absurd ⟨r, hr, henabled⟩ hnot

theorem Safe.clear (h : Safe sha data d) (hlength : d.length = data.length) :
    Safe sha data (d.apply (.record none)) where
  length_ge := h.length_ge
  data_eq := h.data_eq
  free := fun _ => hlength
  recordOk := nofun
  preparing := nofun
  built := nofun
  enabled := nofun

theorem Safe.mark (h : Safe sha data d) (hr : RecordOk data r)
    (hfresh : r.phase = .preparing → Fresh data r)
    (hcomplete : r.phase ≠ .preparing → Complete sha data d r) :
    Safe sha data (d.apply (.record (some r))) where
  length_ge := h.length_ge
  data_eq := h.data_eq
  free := nofun
  recordOk := fun r' hr' => by
    cases hr'
    exact hr
  preparing := fun r' hr' hphase => by
    cases hr'
    exact hfresh hphase
  built := fun r' hr' hphase => by
    cases hr'
    have hall := hcomplete (by rw [hphase]; decide)
    obtain ⟨log, hlog, hplace⟩ := hall
    exact ⟨⟨log, hlog⟩, fun _ => ⟨log, hlog, hplace⟩⟩
  enabled := fun r' hr' hphase => by
    cases hr'
    exact hcomplete (by rw [hphase]; decide)

/-! ## The volume -/

variable {v : Volume}

theorem VolumeOk.flush (h : VolumeOk sha data v) : VolumeOk sha data (flush v) where
  all := .flush h.all.visible
  settled := fun hnot => .flush hnot

theorem VolumeOk.crash (h : VolumeOk sha data v) (kept : List Bool) :
    VolumeOk sha data (v.crash Disk.apply kept) where
  all := h.all.crash kept
  settled := fun hnot kept' hkept' => by
    obtain rfl : kept' = [] := List.sublist_nil.mp hkept'
    exact hnot

theorem VolumeOk.add (h : VolumeOk sha data v)
    (hsafe : v.All Disk.apply fun d => Safe sha data (d.apply c))
    (hsettled : ¬ Enabled ((visible v).apply c) →
      ¬ Enabled (visible v) ∧ v.All Disk.apply fun d => ¬ Enabled (d.apply c)) :
    VolumeOk sha data (v.add c) where
  all := h.all.add hsafe
  settled := fun hnot => by
    rw [visible, Storage.visible_add] at hnot
    obtain ⟨hold, hnew⟩ := hsettled hnot
    exact (h.settled hold).add hnew

theorem VolumeOk.change (h : VolumeOk sha data v)
    (hadd : VolumeOk sha data (v.add c)) (o : Outcome) : VolumeOk sha data (change v c o) := by
  unfold Transaction.change
  split
  · exact hadd
  · exact h

theorem visible_change (v : Volume) (c : Change) (o : Outcome) :
    visible (change v c o) = if o.landed then (visible v).apply c else visible v := by
  unfold change
  split
  · rw [visible, Storage.visible_add]
  · rfl

theorem VolumeOk.truncate (h : VolumeOk sha data v) (hnot : ¬ Enabled (visible v)) :
    VolumeOk sha data (v.add (.setLength data.length)) := by
  have hsettled := h.settled hnot
  refine h.add ((h.all.and hsettled).mono fun d hd => hd.1.truncate hd.2) fun _ => ⟨hnot, hsettled⟩

/-- The result of a rollback: what is left is not enabled, and when it was done to the end nothing
is left. -/
structure Recovered (sha : Sha) (data : Bytes) (r : Record) (v : Volume) (done : Bool) : Prop where
  ok : VolumeOk sha data v
  notEnabled : ¬ Enabled (visible v)
  record : (visible v).record = some r ∨ (visible v).record = none
  finished : done → (visible v).record = none ∧ v.pending = []

theorem recover_ok (h : VolumeOk sha data v) (hr : (visible v).record = some r)
    (hphase : r.phase ≠ .enabled) (run : Rollback) :
    Recovered sha data r (recover v r run).1 (recover v r run).2 := by
  have hnot : ¬ Enabled (visible v) := by
    rintro ⟨r', hr', henabled⟩
    rw [hr, Option.some_inj] at hr'
    exact hphase (hr' ▸ henabled)
  have hsize := (h.all.visible.recordOk r hr).dataSize
  have htruncated := h.change (h.truncate hnot) run.truncate
  have hrecord : (visible (change v (.setLength data.length) run.truncate)).record = some r := by
    rw [visible_change]
    split <;> exact hr
  have hnot₁ : ¬ Enabled (visible (change v (.setLength data.length) run.truncate)) := by
    rintro ⟨r', hr', henabled⟩
    rw [hrecord, Option.some_inj] at hr'
    exact hphase (hr' ▸ henabled)
  unfold recover
  rw [if_neg hphase, hsize]
  dsimp only
  split
  · exact ⟨htruncated, hnot₁, .inl hrecord, nofun⟩
  · next hdone =>
    have htruncate : run.truncate = .done := by
      by_contra hne
      exact hdone (by simp [hne])
    rw [htruncate] at htruncated hrecord hnot₁ ⊢
    have hflushed := htruncated.flush
    have hlength : (visible (flush (change v (.setLength data.length) .done))).length =
        data.length := by
      show (visible (change v (.setLength data.length) .done)).length = _
      rw [visible_change]
      rfl
    have hcleared : VolumeOk sha data
        ((flush (change v (.setLength data.length) .done)).add (.record none)) := by
      refine hflushed.add ?_ fun _ => ⟨hnot₁, ?_⟩
      · exact .flush (hflushed.all.visible.clear hlength)
      · exact .flush nofun
    have hchanged := hflushed.change hcleared run.delete
    have hnot₂ : ¬ Enabled (visible (change
        (flush (change v (.setLength data.length) .done)) (.record none) run.delete)) := by
      rw [visible_change]
      split
      · exact nofun
      · exact hnot₁
    split
    · refine ⟨hchanged, hnot₂, ?_, nofun⟩
      rw [visible_change]
      split
      · exact .inr rfl
      · exact .inl hrecord
    · next hdone =>
      have hdelete : run.delete = .done := by
        by_contra hne
        exact hdone (by simp [hne])
      rw [hdelete] at hchanged hnot₂ ⊢
      have hnone : (visible (flush (change
          (flush (change v (.setLength data.length) .done)) (.record none) .done))).record =
          none := by
        show (visible (change (flush (change v (.setLength data.length) .done))
          (.record none) .done)).record = none
        rw [visible_change]
        rfl
      exact ⟨hchanged.flush, hnot₂, .inr hnone, fun _ => ⟨hnone, rfl⟩⟩

end Kinakaze.Verity.Transaction
