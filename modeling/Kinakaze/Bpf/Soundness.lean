import Kinakaze.Bpf.Accepted

/-!
# A verified program runs to its end

The masks the walk settled on simulate a run: the mask of the instruction a
run has reached contains only registers the run has written, and r1 and r10,
which it started with.
-/

namespace Kinakaze.Bpf

open Library

variable {programType : Nat} {bytes : List (BitVec 8)} {insn : Insn}
  {context : BitVec 32 × BitVec 32 × BitVec 32} {registers : Registers} {m m' : Machine}

/-! ## Runs -/

/-- The register an instruction writes. -/
def Insn.writes (insn : Insn) : Option Nat :=
  match insn.class with
  | 0x01 | 0x04 | 0x07 => some insn.dst
  | _ => none

/-- The states a run passes through, with the registers it has written. -/
inductive Executed (bytes : List (BitVec 8)) (context : BitVec 32 × BitVec 32 × BitVec 32)
    (registers : Registers) : Machine → List Nat → Prop
  | start : Executed bytes context registers ⟨registers, 0⟩ []
  | next {m m' : Machine} {written : List Nat} {insn : Insn}
      (h : Executed bytes context registers m written) (hinsn : decode bytes m.pc = some insn)
      (hstep : step bytes context m = .ok (.next m')) :
      Executed bytes context registers m' (insn.writes.toList ++ written)

theorem decode_lt {index : Nat} (h : decode bytes index = some insn) :
    index < bytes.length / insnSize := by
  unfold decode at h
  simp only at h
  split at h
  · next b0 b1 b2 b3 b4 b5 b6 b7 rest hdrop =>
    have hlength := congrArg List.length hdrop
    simp only [List.length_drop, List.length_cons, insnSize] at hlength ⊢
    omega
  · cases h

/-! ## Supported operations -/

variable {operation : Nat}

theorem alu32_supported (h : operation ∈ aluOperations)
    (left right : BitVec 32) : ∃ value, alu32 operation left right = some value := by
  simp only [aluOperations, List.mem_cons, List.not_mem_nil, or_false] at h
  rcases h with rfl | rfl | rfl | rfl | rfl | rfl | rfl | rfl | rfl | rfl | rfl | rfl | rfl
  all_goals exact ⟨_, rfl⟩

theorem alu64_supported (h : operation ∈ aluOperations)
    (current source : BitVec 64) : ∃ value, alu64 operation current source = some value := by
  simp only [aluOperations, List.mem_cons, List.not_mem_nil, or_false] at h
  rcases h with rfl | rfl | rfl | rfl | rfl | rfl | rfl | rfl | rfl | rfl | rfl | rfl | rfl
  all_goals exact ⟨_, rfl⟩

theorem aluValue_supported (h : insn.operation ∈ aluOperations) (current source : BitVec 64) :
    ∃ value, aluValue insn current source = some value := by
  unfold aluValue
  split_ifs
  · obtain ⟨value, hvalue⟩ := alu32_supported h (current.setWidth 32) (source.setWidth 32)
    exact ⟨_, by rw [hvalue]; rfl⟩
  · exact alu64_supported h current source

theorem compare_supported {w : Nat} (h : operation ∈ jumpOperations)
    (left right : BitVec w) : ∃ taken, compare operation left right = some taken := by
  simp only [jumpOperations, List.mem_cons, List.not_mem_nil, or_false] at h
  rcases h with rfl | rfl | rfl | rfl | rfl | rfl | rfl | rfl | rfl | rfl | rfl | rfl
  all_goals exact ⟨_, rfl⟩

theorem jumpTaken_supported (h : insn.operation ∈ jumpOperations) (left right : BitVec 64) :
    ∃ taken, jumpTaken insn left right = some taken := by
  unfold jumpTaken
  split_ifs <;> exact compare_supported h _ _

theorem sourceOperand_ok (hsrc : insn.src ≤ 10) (registers : Registers) :
    sourceOperand registers insn = .ok
      (if insn.sourceIsRegister then registers insn.src else insn.immediate.signExtend 64) := by
  unfold sourceOperand readRegister
  rw [if_pos (show insn.src < 11 by omega)]
  split_ifs <;> rfl

/-! ## Steps -/

/-- What a step of an accepted program does: it ends the run at an EXIT, or
moves on to a successor the walk recorded. -/
inductive Steps (bytes : List (BitVec 8)) (context : BitVec 32 × BitVec 32 × BitVec 32)
    (m : Machine) (insn : Insn) (mask out : Mask) (successors : List Nat) : Prop
  | done (hclass : insn.class = 0x05 ∨ insn.class = 0x06) (hexit : insn.operation = 0x90)
      (hzero : mask.has 0 = true)
      (hstep : step bytes context m = .ok (.done (m.registers 0)))
  | load {value : BitVec 64} (hclass : insn.class = 0x01) (hout : out = mask.add insn.dst)
      (hvalue : loadContext context insn = .ok value) (hnext : m.pc + 1 ∈ successors)
      (hstep : step bytes context m =
        .ok (.next ⟨Function.update m.registers insn.dst value, m.pc + 1⟩))
  | alu {value : BitVec 64} (hclass : insn.class = 0x04 ∨ insn.class = 0x07)
      (hout : out = mask.add insn.dst)
      (hvalue : aluValue insn (m.registers insn.dst)
        (if insn.sourceIsRegister then m.registers insn.src
          else insn.immediate.signExtend 64) = some value)
      (hnext : m.pc + 1 ∈ successors)
      (hstep : step bytes context m =
        .ok (.next ⟨Function.update m.registers insn.dst value, m.pc + 1⟩))
  | jump {taken : Bool} {target : Nat} (hclass : insn.class = 0x05 ∨ insn.class = 0x06)
      (hexit : insn.operation ≠ 0x90) (hout : out = mask)
      (htaken : jumpTaken insn (m.registers insn.dst)
        (if insn.sourceIsRegister then m.registers insn.src
          else insn.immediate.signExtend 64) = some taken)
      (htarget : jumpTarget m.pc insn.offset (bytes.length / insnSize) = .ok target)
      (hnext : (if taken then target else m.pc + 1) ∈ successors)
      (hstep : step bytes context m = .ok (.next ⟨m.registers, if taken then target else m.pc + 1⟩))

variable {incoming : Nat → Option Mask}

theorem Accepted.fallThrough_mem (h : Accepted programType bytes incoming) {pc : Nat}
    (hinsn : decode bytes pc = some insn)
    (hnotExit : ¬ ((insn.class = 0x05 ∨ insn.class = 0x06) ∧ insn.operation = 0x90)) :
    pc + 1 ∈ fallThrough pc (bytes.length / insnSize) := by
  rw [mem_fallThrough]
  refine ⟨rfl, ?_⟩
  have hlt := decode_lt hinsn
  have hne : pc ≠ bytes.length / insnSize - 1 := by
    rintro rfl
    obtain ⟨last, hlast, hcode⟩ := h.exit
    rw [hlast] at hinsn
    cases hinsn
    refine hnotExit ⟨.inl ?_, ?_⟩
    · simp [Insn.class, hcode]
    · simp [Insn.operation, hcode]
  have hpos := h.nonempty
  omega

theorem step_allowed (h : Accepted programType bytes incoming) {mask out : Mask}
    {successors : List Nat} (hinsn : decode bytes m.pc = some insn) (hdst : insn.dst ≤ 10)
    (hsrc : insn.src ≤ 10)
    (hallowed : Allowed programType m.pc (bytes.length / insnSize) insn mask out successors) :
    Steps bytes context m insn mask out successors := by
  have hread : readRegister m.registers insn.dst = .ok (m.registers insn.dst) := by
    rw [readRegister, if_pos (by omega)]
  have hwrite : ∀ value, writeRegister m.registers insn.dst value =
      .ok (Function.update m.registers insn.dst value) := by
    intro value
    rw [writeRegister, if_pos (by omega)]
  cases hallowed with
  | load hclass htransfer =>
    obtain ⟨-, hoffset, hrange, rfl, rfl⟩ := transferLoad_ok htransfer
    have hvalue : loadContext context insn = .ok (fromLeBytes
        ((rawContext context).drop insn.offset.toNat |>.take insn.width)) := by
      rw [loadContext, if_neg (by omega), if_pos hrange]
    refine .load hclass rfl hvalue (h.fallThrough_mem hinsn (by omega)) ?_
    simp only [step, hinsn, hclass, stepLoad, hvalue, hwrite]
    rfl
  | alu hclass htransfer =>
    obtain ⟨-, -, hoperation, -, rfl, rfl⟩ := transferAlu_ok htransfer
    obtain ⟨value, hvalue⟩ := aluValue_supported hoperation (m.registers insn.dst)
      (if insn.sourceIsRegister then m.registers insn.src else insn.immediate.signExtend 64)
    refine .alu hclass rfl hvalue (h.fallThrough_mem hinsn (by omega)) ?_
    have hstep : step bytes context m = stepAlu m insn := by
      rcases hclass with hclass | hclass <;> simp only [step, hinsn, hclass]
    rw [hstep, stepAlu, sourceOperand_ok hsrc, hread]
    simp only [bind, Except.bind, hvalue, orUnsupported, hwrite]
    rfl
  | jump hclass htransfer =>
    have hstep : step bytes context m = stepJump (bytes.length / insnSize) m insn := by
      rcases hclass with hclass | hclass <;> simp only [step, hinsn, hclass]
    rcases transferJump_ok htransfer with
      ⟨hexit, hzero, rfl, rfl⟩ | ⟨hexit, hoperation, -, target, htarget, rfl, rfl⟩
    · refine .done hclass hexit hzero ?_
      rw [hstep, stepJump, if_pos hexit]
      rfl
    obtain ⟨taken, htaken⟩ := jumpTaken_supported hoperation (m.registers insn.dst)
      (if insn.sourceIsRegister then m.registers insn.src
        else insn.immediate.signExtend 64)
    refine .jump hclass hexit rfl htaken htarget ?_ ?_
    · cases taken with
      | true => simp
      | false =>
        have hjump : insn.operation ≠ 0x00 := by
          intro hzero
          simp [jumpTaken, hzero, compare] at htaken
        simp only [Bool.false_eq_true, if_false, if_pos hjump, List.mem_cons]
        exact .inr (h.fallThrough_mem hinsn fun hexit' => hexit hexit'.2)
    · rw [hstep, stepJump, if_neg hexit, hread, sourceOperand_ok hsrc]
      simp only [bind, Except.bind, htaken, orUnsupported, htarget, Except.mapError]
      cases taken <;> rfl

/-! ## The simulation -/

/-- The walk has a mask for the state, of registers the run has initialized. -/
def Tracked (incoming : Nat → Option Mask) (m : Machine) (written : List Nat) : Prop :=
  ∃ mask, incoming m.pc = some mask ∧ ∀ r, mask.has r = true → r ∈ written ∨ r = 1 ∨ r = 10

variable {written : List Nat}

/-- At a tracked state the walk has let the instruction through, and the step
is one that it recorded. -/
theorem Tracked.steps (h : Accepted programType bytes incoming) (ht : Tracked incoming m written)
    (context : BitVec 32 × BitVec 32 × BitVec 32) :
    ∃ insn mask out successors, decode bytes m.pc = some insn ∧ insn.dst ≤ 10 ∧ insn.src ≤ 10 ∧
      Allowed programType m.pc (bytes.length / insnSize) insn mask out successors ∧
      (∀ r, mask.has r = true → r ∈ written ∨ r = 1 ∨ r = 10) ∧
      (∀ next ∈ successors, Recorded Mask.below incoming out next) ∧
      Steps bytes context m insn mask out successors := by
  obtain ⟨mask, hmask, hwritten⟩ := ht
  obtain ⟨out, successors, htransfer, hnext⟩ := h.settled m.pc mask hmask
  obtain ⟨insn, hinsn, hdst, hsrc, hallowed⟩ := transfer_ok htransfer
  exact ⟨insn, mask, out, successors, hinsn, hdst, hsrc, hallowed, hwritten, hnext,
    step_allowed h hinsn hdst hsrc hallowed⟩

theorem Tracked.move {written' : List Nat} {out : Mask}
    (hrecorded : Recorded Mask.below incoming out m'.pc)
    (hout : ∀ r, out.has r = true → r ∈ written' ++ written ∨ r = 1 ∨ r = 10) :
    Tracked incoming m' (written' ++ written) := by
  obtain ⟨mask, hmask, hbelow⟩ := hrecorded
  exact ⟨mask, hmask, fun r hr => hout r (hbelow r hr)⟩

section

variable (h : Accepted programType bytes incoming)
include h

theorem Tracked.start (registers : Registers) : Tracked incoming ⟨registers, 0⟩ [] := by
  obtain ⟨mask, hmask, hbelow⟩ := h.start
  exact ⟨mask, hmask, fun r hr => .inr (Mask.has_initial (hbelow r hr))⟩

theorem Tracked.next (ht : Tracked incoming m written)
    (hinsn : decode bytes m.pc = some insn) (hstep : step bytes context m = .ok (.next m')) :
    m.pc < m'.pc ∧ Tracked incoming m' (insn.writes.toList ++ written) := by
  obtain ⟨insn', mask, out, successors, hinsn', -, -, hallowed, hwritten, hnext, hsteps⟩ :=
    ht.steps h context
  obtain rfl : insn = insn' := Option.some.inj (hinsn.symm.trans hinsn')
  have hadd : ∀ r, (mask.add insn.dst).has r = true →
      r ∈ [insn.dst] ++ written ∨ r = 1 ∨ r = 10 := by
    intro r hr
    rcases Mask.has_add hr with hr | rfl
    · rcases hwritten r hr with hmem | hr
      · exact .inl (List.mem_append_right _ hmem)
      · exact .inr hr
    · exact .inl (by simp)
  cases hsteps with
  | done hclass hexit hzero hdone =>
    rw [hdone] at hstep
    cases hstep
  | load hclass hout hvalue hmem hnextStep =>
    rw [hnextStep] at hstep
    cases hstep
    have hwrites : insn.writes = some insn.dst := by simp [Insn.writes, hclass]
    rw [hwrites]
    exact ⟨(hallowed.next_lt _ hmem).1, .move (hnext _ hmem) (hout ▸ hadd)⟩
  | alu hclass hout hvalue hmem hnextStep =>
    rw [hnextStep] at hstep
    cases hstep
    have hwrites : insn.writes = some insn.dst := by
      rcases hclass with hclass | hclass <;> simp [Insn.writes, hclass]
    rw [hwrites]
    exact ⟨(hallowed.next_lt _ hmem).1, .move (hnext _ hmem) (hout ▸ hadd)⟩
  | jump hclass hexit hout htaken htarget hmem hnextStep =>
    rw [hnextStep] at hstep
    cases hstep
    have hwrites : insn.writes = none := by
      rcases hclass with hclass | hclass <;> simp [Insn.writes, hclass]
    rw [hwrites]
    exact ⟨(hallowed.next_lt _ hmem).1, .move (hnext _ hmem) (hout ▸ hwritten)⟩

theorem Executed.tracked (hm : Executed bytes context registers m written) :
    Tracked incoming m written := by
  induction hm with
  | start => exact .start h registers
  | next _ hinsn hstep ih => exact (ih.next h hinsn hstep).2

theorem Executed.allowed (hm : Executed bytes context registers m written)
    (hinsn : decode bytes m.pc = some insn) : ∃ mask out successors,
      Allowed programType m.pc (bytes.length / insnSize) insn mask out successors ∧
      (∀ r, mask.has r = true → r ∈ written ∨ r = 1 ∨ r = 10) ∧
      Steps bytes context m insn mask out successors := by
  obtain ⟨insn', mask, out, successors, hinsn', -, -, hallowed, hwritten, -, hsteps⟩ :=
    (hm.tracked h).steps h context
  obtain rfl : insn = insn' := Option.some.inj (hinsn.symm.trans hinsn')
  exact ⟨mask, out, successors, hallowed, hwritten, hsteps⟩

/-! ## Runs to the end -/

theorem Tracked.executeFrom {fuel : Nat}
    (ht : Tracked incoming m written) (hfuel : bytes.length / insnSize ≤ m.pc + fuel) :
    ∃ value, executeFrom bytes context fuel m = some (.ok value) := by
  induction fuel generalizing m written with
  | zero =>
    obtain ⟨insn, -, -, -, hinsn, -⟩ := ht.steps h context
    have hlt := decode_lt hinsn
    omega
  | succ fuel ih =>
    obtain ⟨insn, mask, out, successors, hinsn, -, -, -, -, -, hsteps⟩ := ht.steps h context
    have hcontinue : ∀ m', step bytes context m = .ok (.next m') →
        ∃ value, Bpf.executeFrom bytes context (fuel + 1) m = some (.ok value) := by
      intro m' hstep
      obtain ⟨hlt, htracked⟩ := ht.next h hinsn hstep
      obtain ⟨value, hvalue⟩ := ih htracked (by omega)
      refine ⟨value, ?_⟩
      rw [Bpf.executeFrom, if_pos (decode_lt hinsn)]
      simp only [hstep, hvalue]
    cases hsteps with
    | done hclass hexit hzero hstep =>
      refine ⟨m.registers 0, ?_⟩
      rw [Bpf.executeFrom, if_pos (decode_lt hinsn)]
      simp only [hstep]
    | load hclass hout hvalue hmem hstep => exact hcontinue _ hstep
    | alu hclass hout hvalue hmem hstep => exact hcontinue _ hstep
    | jump hclass hexit hout htaken htarget hmem hstep => exact hcontinue _ hstep

end

/-- A verified program returns a value on every context, within as many
instructions as it has.  On the way the program counter stays in the program,
registers and loads stay in bounds, and no step faults. -/
theorem verify_sound (h : verify programType bytes = some (.ok ()))
    (context : BitVec 32 × BitVec 32 × BitVec 32) :
    (∃ value, execute bytes context = some (.ok value)) ∧
      ∀ m written, Executed bytes context initialRegisters m written →
        m.pc < bytes.length / insnSize ∧
        (∀ insn, decode bytes m.pc = some insn → insn.dst < 11 ∧ insn.src < 11 ∧
          (insn.class = 0x01 → 0 ≤ insn.offset ∧ insn.offset.toNat + insn.width ≤ 12)) ∧
        ∃ progress, step bytes context m = .ok progress := by
  obtain ⟨incoming, haccepted⟩ := accepted_of_verify h
  refine ⟨(Tracked.start haccepted initialRegisters).executeFrom haccepted (by simp),
    fun m written hm => ?_⟩
  obtain ⟨insn, mask, out, successors, hinsn, hdst, hsrc, hallowed, -, -, hsteps⟩ :=
    (hm.tracked haccepted).steps haccepted context
  refine ⟨decode_lt hinsn, fun insn' hinsn' => ?_, ?_⟩
  · obtain rfl : insn = insn' := Option.some.inj (hinsn.symm.trans hinsn')
    refine ⟨by omega, by omega, fun hclass => ?_⟩
    cases hallowed with
    | load _ htransfer =>
      obtain ⟨-, hoffset, hrange, -, -⟩ := transferLoad_ok htransfer
      exact ⟨hoffset, hrange⟩
    | alu | jump => omega
  · cases hsteps with
    | done hclass hexit hzero hstep => exact ⟨_, hstep⟩
    | load hclass hout hvalue hmem hstep => exact ⟨_, hstep⟩
    | alu hclass hout hvalue hmem hstep => exact ⟨_, hstep⟩
    | jump hclass hexit hout htaken htarget hmem hstep => exact ⟨_, hstep⟩

/-! ## A device program -/

/-- One instruction as the program text has it. -/
def encode (code dst src : Nat) (offset : Int) (immediate : BitVec 32) : List (BitVec 8) :=
  let low := BitVec.ofInt 16 offset
  [BitVec.ofNat 8 code, BitVec.ofNat 8 (dst + 16 * src), low.extractLsb' 0 8,
    low.extractLsb' 8 8, immediate.extractLsb' 0 8, immediate.extractLsb' 8 8,
    immediate.extractLsb' 16 8, immediate.extractLsb' 24 8]

/-- A device decision: allow character devices and nothing else. -/
def deviceDecision : List (BitVec 8) :=
  encode 0x61 2 1 0 0 ++ encode 0x54 2 0 0 0xffff ++ encode 0x55 2 0 2 2 ++
    encode 0xb4 0 0 0 1 ++ encode 0x95 0 0 0 0 ++ encode 0xb4 0 0 0 0 ++ encode 0x95 0 0 0 0

theorem verify_deviceDecision : verify progTypeCgroupDevice deviceDecision = some (.ok ()) := by
  decide

theorem verify_sound_deviceDecision :
    (∃ value, execute deviceDecision (2, 1, 3) = some (.ok value)) :=
  (verify_sound verify_deviceDecision (2, 1, 3)).1

end Kinakaze.Bpf
