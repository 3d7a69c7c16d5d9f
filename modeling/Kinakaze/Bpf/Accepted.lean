import Kinakaze.Bpf.Interpreter
import Kinakaze.Library.StatefulCall

/-!
# What an accepted program looks like

* `transferLoad_ok`, `transferAlu_ok`, `transferJump_ok`: an instruction the
  walk lets through, one lemma for each class.
-/

namespace Kinakaze.Bpf

open Library

variable {programType pc count : Nat} {insn : Insn} {mask out : Mask} {successors : List Nat}

/-! ## Masks -/

/-- Every register of the one mask is in the other. -/
def Mask.below (mask mask' : Mask) : Prop := ∀ r, mask.has r = true → mask'.has r = true

theorem Mask.below_refl (mask : Mask) : mask.below mask := fun _ h => h

theorem Mask.below_trans (a b c : Mask) (hab : a.below b) (hbc : b.below c) : a.below c :=
  fun r h => hbc r (hab r h)

theorem Mask.and_below_left (a b : Mask) : Mask.below (a &&& b) a := by
  intro r h
  simp only [Mask.has, BitVec.getLsbD_and, Bool.and_eq_true] at h
  exact h.1

theorem Mask.and_below_right (a b : Mask) : Mask.below (a &&& b) b := by
  intro r h
  simp only [Mask.has, BitVec.getLsbD_and, Bool.and_eq_true] at h
  exact h.2

variable {r register : Nat}

theorem Mask.has_add (h : (mask.add register).has r = true) : mask.has r = true ∨ r = register := by
  simp only [Mask.has, Mask.add, BitVec.getLsbD_or, BitVec.getLsbD_shiftLeft, Bool.or_eq_true,
    Bool.and_eq_true, BitVec.getLsbD_one, Bool.not_eq_true', decide_eq_true_eq,
    decide_eq_false_iff_not] at h ⊢
  rcases h with h | h
  · exact .inl h
  · exact .inr (by omega)

theorem Mask.has_initial (h : initialMask.has r = true) : r = 1 ∨ r = 10 := by
  have hten : Mask.has (Mask.add (1#16 <<< 1) 10) r = true := h
  rcases Mask.has_add hten with h | h
  · have hone : Mask.has (Mask.add 0 1) r = true := by simpa [Mask.add] using h
    rcases Mask.has_add hone with h | h
    · simp [Mask.has] at h
    · exact .inl h
  · exact .inr h

/-- The number of registers in a mask. -/
def Mask.height (mask : Mask) : Nat := ((List.range 16).filter mask.has).length

theorem Mask.height_le (mask : Mask) : mask.height ≤ 16 := by
  have h := List.length_filter_le mask.has (List.range 16)
  simpa [Mask.height] using h

theorem Mask.height_and (a b : Mask) (h : a &&& b ≠ a) : Mask.height (a &&& b) < Mask.height a := by
  have hfilter : (List.range 16).filter (Mask.has (a &&& b)) =
      ((List.range 16).filter a.has).filter b.has := by
    rw [List.filter_filter]
    refine List.filter_congr fun i _ => ?_
    rw [Mask.has, BitVec.getLsbD_and, Bool.and_comm]
    rfl
  rw [Mask.height, Mask.height, hfilter, List.length_filter_lt_length_iff_exists]
  by_contra hall
  push Not at hall
  refine h (BitVec.eq_of_getLsbD_eq fun i hi => ?_)
  have hkept : a.has i = true → b.has i = true := fun ha =>
    hall i (List.mem_filter.mpr ⟨List.mem_range.mpr hi, ha⟩)
  simpa [Mask.has] using hkept

/-! ## Accepted instructions -/

theorem requireRegister_ok (h : requireRegister mask register pc = .ok ()) :
    register ≤ 10 ∧ mask.has register = true := by
  unfold requireRegister at h
  split at h
  · cases h
  · next hle =>
    split at h
    · cases h
    · next hhas => exact ⟨by omega, by simpa using hhas⟩

theorem jumpTarget_ok {offset : Int} {target : Nat} (h : jumpTarget pc offset count = .ok target) :
    pc < target ∧ target < count := by
  unfold jumpTarget at h
  simp only at h
  split_ifs at h with hoverflow hrange hback
  injection h with h
  omega

theorem mem_fallThrough {next : Nat} :
    next ∈ fallThrough pc count ↔ next = pc + 1 ∧ pc + 1 < count := by
  unfold fallThrough
  split_ifs with h <;> simp [h]

theorem refuseIf_ok {ε : Type} {refused : Prop} [Decidable refused] {e : ε} {u : Unit} :
    refuseIf refused e = .ok u ↔ ¬ refused := by
  unfold refuseIf
  split_ifs with h <;> simp [h]

theorem checkIf_ok {ε : Type} {condition : Prop} [Decidable condition] {check : Except ε Unit}
    {u : Unit} : checkIf condition check = .ok u ↔ (condition → check = .ok u) := by
  unfold checkIf
  split_ifs with h <;> simp [h]

theorem transferLoad_ok (h : transferLoad programType pc count insn mask = .ok (out, successors)) :
    (insn.src = 1 ∧ mask.has 1 = true) ∧ 0 ≤ insn.offset ∧
      insn.offset.toNat + insn.width ≤ 12 ∧ out = mask.add insn.dst ∧
      successors = fallThrough pc count := by
  simp only [transferLoad, bind_ok, refuseIf_ok] at h
  obtain ⟨_, -, _, hsrc, _, hone, _, hoffset, _, hrange, h⟩ := h
  cases h
  have hsrc1 : insn.src = 1 := not_not.mp hone
  exact ⟨⟨hsrc1, hsrc1 ▸ (requireRegister_ok hsrc).2⟩, by omega, by omega, rfl, rfl⟩

theorem transferAlu_ok (h : transferAlu pc count insn mask = .ok (out, successors)) :
    (insn.operation ≠ 0xb0 → insn.operation ≠ 0x80 → mask.has insn.dst = true) ∧
      (insn.sourceIsRegister = true → mask.has insn.src = true) ∧
      insn.operation ∈ aluOperations ∧ insn.dst ≠ 10 ∧ out = mask.add insn.dst ∧
      successors = fallThrough pc count := by
  simp only [transferAlu, bind_ok, refuseIf_ok, checkIf_ok] at h
  obtain ⟨_, hdst, _, hsrc, _, -, _, hoperation, _, hframe, h⟩ := h
  cases h
  exact ⟨fun hmov hneg => (requireRegister_ok (hdst ⟨hmov, hneg⟩)).2,
    fun hregister => (requireRegister_ok (hsrc hregister)).2, not_not.mp hoperation, hframe,
    rfl, rfl⟩

/-- EXIT, or a jump to a later instruction. -/
theorem transferJump_ok (h : transferJump pc count insn mask = .ok (out, successors)) :
    (insn.operation = 0x90 ∧ mask.has 0 = true ∧ out = mask ∧ successors = []) ∨
    (insn.operation ≠ 0x90 ∧ insn.operation ∈ jumpOperations ∧
      (insn.operation ≠ 0x00 → mask.has insn.dst = true ∧
        (insn.sourceIsRegister = true → mask.has insn.src = true)) ∧
      ∃ target, jumpTarget pc insn.offset count = .ok target ∧ out = mask ∧
        successors = target :: if insn.operation ≠ 0x00 then fallThrough pc count else []) := by
  by_cases hexit : insn.operation = 0x90
  · simp only [transferJump, if_pos hexit, bind_ok] at h
    obtain ⟨_, hzero, h⟩ := h
    cases h
    exact .inl ⟨hexit, (requireRegister_ok hzero).2, rfl, rfl⟩
  simp only [transferJump, if_neg hexit, bind_ok, refuseIf_ok, checkIf_ok] at h
  obtain ⟨_, -, _, hregisters, _, hoperation, target, htarget, h⟩ := h
  cases h
  refine .inr ⟨hexit, not_not.mp hoperation, fun hjump => ?_, target, htarget, rfl, rfl⟩
  obtain ⟨_, hdst, hsrc⟩ := hregisters hjump
  exact ⟨(requireRegister_ok hdst).2, fun hregister => (requireRegister_ok (hsrc hregister)).2⟩

/-! ## Accepted programs -/

/-- What the walk let through at one instruction. -/
inductive Allowed (programType pc count : Nat) (insn : Insn) (mask : Mask) : Mask → List Nat → Prop
  | load (hclass : insn.class = 0x01) {out : Mask} {successors : List Nat}
      (h : transferLoad programType pc count insn mask = .ok (out, successors)) :
      Allowed programType pc count insn mask out successors
  | alu (hclass : insn.class = 0x04 ∨ insn.class = 0x07) {out : Mask} {successors : List Nat}
      (h : transferAlu pc count insn mask = .ok (out, successors)) :
      Allowed programType pc count insn mask out successors
  | jump (hclass : insn.class = 0x05 ∨ insn.class = 0x06) {out : Mask} {successors : List Nat}
      (h : transferJump pc count insn mask = .ok (out, successors)) :
      Allowed programType pc count insn mask out successors

theorem mapError_ok {ε ε' α : Type} {f : ε → ε'} {x : Except ε α} {a : α} :
    x.mapError f = .ok a ↔ x = .ok a := by
  cases x <;> simp [Except.mapError]

variable {bytes : List (BitVec 8)}

theorem transfer_ok (h : transfer programType bytes count pc mask = .ok (out, successors)) :
    ∃ insn, decode bytes pc = some insn ∧ insn.dst ≤ 10 ∧ insn.src ≤ 10 ∧
      Allowed programType pc count insn mask out successors := by
  unfold transfer at h
  split at h
  · cases h
  · next insn hinsn =>
    rw [mapError_ok] at h
    refine ⟨insn, hinsn, ?_⟩
    by_cases hencoding : insn.dst > 10 ∨ insn.src > 10
    · rw [if_pos hencoding] at h
      cases h
    rw [if_neg hencoding] at h
    refine ⟨by omega, by omega, ?_⟩
    split at h
    · next hclass => exact .load hclass h
    · next hclass => exact .alu (.inl hclass) h
    · next hclass => exact .alu (.inr hclass) h
    · next hclass => exact .jump (.inl hclass) h
    · next hclass => exact .jump (.inr hclass) h
    · cases h

theorem Allowed.next_lt (h : Allowed programType pc count insn mask out successors) :
    ∀ next ∈ successors, pc < next ∧ next < count := by
  intro next hmem
  cases h with
  | load hclass h =>
    obtain ⟨-, -, -, -, rfl⟩ := transferLoad_ok h
    have hnext := mem_fallThrough.mp hmem
    omega
  | alu hclass h =>
    obtain ⟨-, -, -, -, -, rfl⟩ := transferAlu_ok h
    have hnext := mem_fallThrough.mp hmem
    omega
  | jump hclass h =>
    rcases transferJump_ok h with ⟨-, -, -, rfl⟩ | ⟨-, -, -, target, htarget, -, rfl⟩
    · simp at hmem
    rcases List.mem_cons.mp hmem with rfl | hmem
    · exact jumpTarget_ok htarget
    split_ifs at hmem
    · have hnext := mem_fallThrough.mp hmem
      omega
    · simp at hmem

/-- The masks the walk settled on. -/
structure Accepted (programType : Nat) (bytes : List (BitVec 8)) (incoming : Nat → Option Mask) :
    Prop where
  start : ∃ mask, incoming 0 = some mask ∧ mask.below initialMask
  settled : ∀ pc mask, incoming pc = some mask →
    Settled Mask.below (transfer programType bytes (bytes.length / insnSize)) incoming pc mask
  exit : ∃ insn, decode bytes (bytes.length / insnSize - 1) = some insn ∧ insn.code = 0x95
  nonempty : 0 < bytes.length / insnSize

theorem initialAnalysis_progress :
    Library.Progress Mask.below (transfer programType bytes count) initialAnalysis := by
  intro pc mask hmask
  by_cases hpc : pc = 0
  · exact .inr (by simp [initialAnalysis, hpc])
  · simp [initialAnalysis, Function.update_of_ne hpc] at hmask

theorem accepted_of_verify (h : verify programType bytes = some (.ok ())) :
    ∃ incoming, Accepted programType bytes incoming := by
  simp only [verify] at h
  split at h
  · cases h
  split at h
  · cases h
  next hlength =>
  split at h
  · cases h
  split at h
  · cases h
  next last hlast =>
  split at h
  · cases h
  next hexit =>
  split at h
  · cases h
  · cases h
  next incoming hwalk =>
  obtain ⟨hdescends, hsettled⟩ := analyse_settled Mask.below_refl Mask.below_trans
    Mask.and_below_left Mask.and_below_right initialAnalysis_progress hwalk
  refine ⟨incoming, hdescends 0 initialMask (by simp [initialAnalysis]), hsettled,
    ⟨last, hlast, not_not.mp hexit⟩, ?_⟩
  have hpos : 0 < bytes.length := by
    rw [List.length_pos_iff]
    exact fun hnil => hlength (.inl hnil)
  unfold insnSize at hlength ⊢
  omega

theorem walk_terminates (programType : Nat) (bytes : List (BitVec 8)) (count : Nat) :
    ∃ result, analyse (· &&& ·) 0 (transfer programType bytes count) (walkFuel count)
      initialAnalysis = some result := by
  refine analyse_terminates Mask.height 16 count Mask.height_le Mask.height_and
    (fun pc mask out successors hok next hmem => ?_) ?_
  · obtain ⟨insn, -, -, -, hallowed⟩ := transfer_ok hok
    exact (hallowed.next_lt next hmem).2
  · refine (Analysis.potential_le Mask.height_le initialAnalysis).trans ?_
    simp only [initialAnalysis, List.length_singleton, walkFuel]
    omega

/-- The walk ends on every byte string. -/
theorem verify_terminates (programType : Nat) (bytes : List (BitVec 8)) :
    ∃ result, verify programType bytes = some result := by
  obtain ⟨result, hwalk⟩ := walk_terminates programType bytes (bytes.length / insnSize)
  simp only [verify, hwalk]
  repeat' split
  all_goals first | exact ⟨_, rfl⟩ | contradiction

end Kinakaze.Bpf
