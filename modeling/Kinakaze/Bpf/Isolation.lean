import Kinakaze.Bpf.Soundness

/-!
# What an accepted program may read

A device program should depend on its context only: not on the contents its
registers happen to start with, and not on an address it made up.  The masks of
the walk establish this for every instruction but three: a negation of a
register that was never written, a load into the frame pointer, and a load
through r1 after r1 was written.
-/

namespace Kinakaze.Bpf

open Library

variable {programType : Nat} {bytes : List (BitVec 8)} {insn : Insn}
  {context : BitVec 32 × BitVec 32 × BitVec 32} {registers registers' : Registers} {m m' : Machine}

/-- The registers whose values an instruction uses. -/
def Insn.reads (insn : Insn) : List Nat :=
  match insn.class with
  | 0x01 => [insn.src]
  | 0x04 | 0x07 =>
    (if insn.operation ≠ 0xb0 then [insn.dst] else []) ++
      if insn.sourceIsRegister then [insn.src] else []
  | 0x05 | 0x06 =>
    if insn.operation = 0x90 then [0]
    else if insn.operation = 0x00 then []
    else insn.dst :: if insn.sourceIsRegister then [insn.src] else []
  | _ => []

/-- The initial contents of the registers that the interpreter does not give a
meaning are arbitrary. -/
def SamePointers (registers registers' : Registers) : Prop :=
  registers 1 = registers' 1 ∧ registers 10 = registers' 10

structure Isolated (bytes : List (BitVec 8)) : Prop where
  initialized : ∀ context m written, Executed bytes context initialRegisters m written →
    ∀ insn, decode bytes m.pc = some insn → ∀ r ∈ insn.reads, r ∈ written ∨ r = 1 ∨ r = 10
  independent : ∀ context registers registers', SamePointers registers initialRegisters →
    SamePointers registers' initialRegisters →
      executeWith registers bytes context = executeWith registers' bytes context
  framePointer : ∀ context m written, Executed bytes context initialRegisters m written →
    10 ∉ written ∧ m.registers 10 = initialRegisters 10
  contextPointer : ∀ context m written, Executed bytes context initialRegisters m written →
    ∀ insn, decode bytes m.pc = some insn → insn.class = 0x01 →
      insn.src = 1 ∧ 1 ∉ written ∧ m.registers 1 = initialRegisters 1

/-- The three instructions the masks say nothing about. -/
structure TracksAt (written : List Nat) (insn : Insn) : Prop where
  negation : insn.class = 0x04 ∨ insn.class = 0x07 → insn.operation = 0x80 →
    insn.dst ∈ written ∨ insn.dst = 1
  frame : insn.class = 0x01 → insn.dst ≠ 10
  pointer : insn.class = 0x01 → 1 ∉ written

def Tracks (bytes : List (BitVec 8)) : Prop :=
  ∀ context m written, Executed bytes context initialRegisters m written →
    ∀ insn, decode bytes m.pc = some insn → TracksAt written insn

/-! ## Reads -/

variable {written : List Nat}

theorem Allowed.reads {count pc : Nat} {mask out : Mask} {successors : List Nat}
    (h : Allowed programType pc count insn mask out successors)
    (hwritten : ∀ r, mask.has r = true → r ∈ written ∨ r = 1 ∨ r = 10)
    (htracks : TracksAt written insn) : ∀ r ∈ insn.reads, r ∈ written ∨ r = 1 ∨ r = 10 := by
  intro r hr
  cases h with
  | load hclass htransfer =>
    obtain ⟨⟨hsrc, -⟩, -⟩ := transferLoad_ok htransfer
    simp only [Insn.reads, hclass, List.mem_singleton] at hr
    exact .inr (.inl (hr.trans hsrc))
  | alu hclass htransfer =>
    obtain ⟨hdst, hsrc, -⟩ := transferAlu_ok htransfer
    have hreads : insn.reads = (if insn.operation ≠ 0xb0 then [insn.dst] else []) ++
        if insn.sourceIsRegister then [insn.src] else [] := by
      rcases hclass with hclass | hclass <;> simp only [Insn.reads, hclass]
    rw [hreads, List.mem_append] at hr
    rcases hr with hr | hr
    · split_ifs at hr with hmov
      · obtain rfl : r = insn.dst := by simpa using hr
        by_cases hneg : insn.operation = 0x80
        · rcases htracks.negation hclass hneg with hmem | hone
          · exact .inl hmem
          · exact .inr (.inl hone)
        · exact hwritten _ (hdst hmov hneg)
      · simp at hr
    · split_ifs at hr with hregister
      · obtain rfl : r = insn.src := by simpa using hr
        exact hwritten _ (hsrc hregister)
      · simp at hr
  | jump hclass htransfer =>
    have hreads : insn.reads = if insn.operation = 0x90 then [0]
        else if insn.operation = 0x00 then []
        else insn.dst :: if insn.sourceIsRegister then [insn.src] else [] := by
      rcases hclass with hclass | hclass <;> simp only [Insn.reads, hclass]
    rw [hreads] at hr
    rcases transferJump_ok htransfer with ⟨hexit, hzero, -⟩ | ⟨hexit, -, hregisters, -⟩
    · rw [if_pos hexit] at hr
      obtain rfl : r = 0 := by simpa using hr
      exact hwritten _ hzero
    rw [if_neg hexit] at hr
    split_ifs at hr with hjump hregister
    · simp at hr
    · rcases List.mem_cons.mp hr with rfl | hr
      · exact hwritten _ (hregisters hjump).1
      · obtain rfl : r = insn.src := by simpa using hr
        exact hwritten _ ((hregisters hjump).2 hregister)
    · obtain rfl : r = insn.dst := by simpa using hr
      exact hwritten _ (hregisters hjump).1

/-! ## Two runs -/

theorem aluValue_mov (h : insn.operation = 0xb0) (current current' source : BitVec 64) :
    aluValue insn current source = aluValue insn current' source := by
  simp [aluValue, h, alu32, alu64]

theorem jumpTaken_always (h : insn.operation = 0x00) (left right : BitVec 64) :
    jumpTaken insn left right = some true := by
  simp [jumpTaken, h, compare]

theorem source_agree (insn : Insn)
    (h : insn.sourceIsRegister = true → registers' insn.src = registers insn.src) :
    (if insn.sourceIsRegister then registers' insn.src else insn.immediate.signExtend 64) =
      if insn.sourceIsRegister then registers insn.src else insn.immediate.signExtend 64 := by
  split_ifs with hregister
  · exact h hregister
  · rfl

/-- Two register files that agree on what an instruction reads agree on what it
does. -/
theorem Steps.agree {mask out mask' out' : Mask} {successors successors' : List Nat}
    (hs : Steps bytes context m insn mask out successors)
    (hs' : Steps bytes context ⟨registers', m.pc⟩ insn mask' out' successors')
    (hreads : ∀ r ∈ insn.reads, registers' r = m.registers r) :
    (∃ value, step bytes context m = .ok (.done value) ∧
      step bytes context ⟨registers', m.pc⟩ = .ok (.done value)) ∨
    ∃ m' registers'', step bytes context m = .ok (.next m') ∧
      step bytes context ⟨registers', m.pc⟩ = .ok (.next ⟨registers'', m'.pc⟩) ∧
      (∀ r, registers' r = m.registers r → registers'' r = m'.registers r) ∧
      ∀ r ∈ insn.writes.toList, registers'' r = m'.registers r := by
  have hupdate : ∀ value r, registers' r = m.registers r →
      Function.update registers' insn.dst value r =
        Function.update m.registers insn.dst value r := by
    intro value r hr
    by_cases hdst : r = insn.dst
    · simp [hdst]
    · simp [Function.update_of_ne hdst, hr]
  cases hs with
  | done hclass hexit hzero hstep =>
    cases hs' with
    | done _ _ _ hstep' =>
      refine .inl ⟨_, hstep, ?_⟩
      have hread : registers' 0 = m.registers 0 := by
        refine hreads 0 ?_
        rcases hclass with hclass | hclass <;> simp [Insn.reads, hclass, hexit]
      rw [hstep', ← hread]
    | load | alu => omega
    | jump _ hexit' => exact absurd hexit hexit'
  | load hclass hout hvalue hmem hstep =>
    cases hs' with
    | done | alu | jump => omega
    | load _ _ hvalue' _ hstep' =>
      cases hvalue.symm.trans hvalue'
      refine .inr ⟨_, _, hstep, hstep', hupdate _, fun r hr => ?_⟩
      have hwrites : insn.writes = some insn.dst := by simp [Insn.writes, hclass]
      obtain rfl : r = insn.dst := by simpa [hwrites] using hr
      simp
  | alu hclass hout hvalue hmem hstep =>
    cases hs' with
    | done | load | jump => omega
    | alu _ _ hvalue' _ hstep' =>
      have hsource := source_agree insn fun hregister => hreads insn.src <| by
        rcases hclass with hclass | hclass <;> simp [Insn.reads, hclass, hregister]
      simp only [hsource] at hvalue'
      have hsame := hvalue.symm.trans (Eq.trans ?_ hvalue')
      · cases hsame
        refine .inr ⟨_, _, hstep, hstep', hupdate _, fun r hr => ?_⟩
        have hwrites : insn.writes = some insn.dst := by
          rcases hclass with hclass | hclass <;> simp [Insn.writes, hclass]
        obtain rfl : r = insn.dst := by simpa [hwrites] using hr
        simp
      · by_cases hmov : insn.operation = 0xb0
        · exact aluValue_mov hmov _ _ _
        · have hdst : registers' insn.dst = m.registers insn.dst := by
            refine hreads _ ?_
            rcases hclass with hclass | hclass <;> simp [Insn.reads, hclass, hmov]
          rw [hdst]
  | jump hclass hexit hout htaken htarget hmem hstep =>
    cases hs' with
    | done _ hexit' => exact absurd hexit' hexit
    | load | alu => omega
    | jump _ _ _ htaken' htarget' _ hstep' =>
      cases htarget.symm.trans htarget'
      have hsame := htaken.symm.trans (Eq.trans ?_ htaken')
      · cases hsame
        refine .inr ⟨_, _, hstep, hstep', fun r hr => hr, fun r hr => ?_⟩
        have hwrites : insn.writes = none := by
          rcases hclass with hclass | hclass <;> simp [Insn.writes, hclass]
        simp [hwrites] at hr
      by_cases hjump : insn.operation = 0x00
      · rw [jumpTaken_always hjump, jumpTaken_always hjump]
      have hdst : registers' insn.dst = m.registers insn.dst := by
        refine hreads _ ?_
        rcases hclass with hclass | hclass <;> simp [Insn.reads, hclass, hexit, hjump]
      have hsource := source_agree insn fun hregister => hreads insn.src <| by
        rcases hclass with hclass | hclass <;>
          simp [Insn.reads, hclass, hexit, hjump, hregister]
      simp only [hsource, hdst]

variable {incoming : Nat → Option Mask}

section

variable (h : Accepted programType bytes incoming)
include h

/-- Two register files that agree on what a run has initialized lead to the same
result. -/
theorem executeFrom_agree (hreads : ∀ m written, Executed bytes context registers m written →
      ∀ insn, decode bytes m.pc = some insn →
        ∀ r ∈ insn.reads, r ∈ written ∨ r = 1 ∨ r = 10) {fuel : Nat}
    (hm : Executed bytes context registers m written)
    (hsame : ∀ r, r ∈ written ∨ r = 1 ∨ r = 10 → registers' r = m.registers r) :
    executeFrom bytes context fuel ⟨registers', m.pc⟩ = executeFrom bytes context fuel m := by
  induction fuel generalizing m registers' written with
  | zero => simp [executeFrom]
  | succ fuel ih =>
    obtain ⟨insn, mask, out, successors, hinsn, hdst, hsrc, hallowed, -, -, hsteps⟩ :=
      (hm.tracked h).steps h context
    have hsteps' : Steps bytes context ⟨registers', m.pc⟩ insn mask out successors :=
      step_allowed h hinsn hdst hsrc hallowed
    have hagree := hsteps.agree hsteps' fun r hr => hsame r (hreads m written hm insn hinsn r hr)
    have hlt := decode_lt hinsn
    rcases hagree with ⟨value, hstep, hstep'⟩ | ⟨m', registers'', hstep, hstep', hkept, hnew⟩
    · rw [executeFrom, executeFrom, if_pos hlt, if_pos hlt]
      simp only [hstep, hstep']
    rw [executeFrom, executeFrom, if_pos hlt, if_pos hlt]
    simp only [hstep, hstep']
    refine ih (hm.next hinsn hstep) fun r hr => ?_
    rcases hr with hr | hr
    · rcases List.mem_append.mp hr with hr | hr
      · exact hnew r hr
      · exact hkept r (hsame r (.inl hr))
    · exact hkept r (hsame r (.inr hr))

theorem executeWith_agree (hreads : ∀ m written, Executed bytes context initialRegisters m written →
      ∀ insn, decode bytes m.pc = some insn → ∀ r ∈ insn.reads, r ∈ written ∨ r = 1 ∨ r = 10)
    (hsame : SamePointers registers initialRegisters) :
    executeWith registers bytes context = execute bytes context := by
  refine executeFrom_agree h hreads .start fun r hr => ?_
  rcases hr with hr | rfl | rfl
  · cases hr
  · exact hsame.1
  · exact hsame.2

/-! ## Writes -/

theorem Executed.unwritten
    (hm : Executed bytes context registers m written) {r : Nat} (hr : r ∉ written) :
    m.registers r = registers r := by
  induction hm with
  | start => rfl
  | @next m m' written insn hm hinsn hstep ih =>
    obtain ⟨mask, out, successors, -, -, hsteps⟩ := hm.allowed h hinsn
    have hbefore := ih fun hmem => hr (List.mem_append_right _ hmem)
    have hother : ∀ value, insn.writes = some insn.dst →
        Function.update m.registers insn.dst value r = registers r := by
      intro value hwrites
      have hne : r ≠ insn.dst := fun heq => hr (by simp [hwrites, heq])
      rw [Function.update_of_ne hne, hbefore]
    cases hsteps with
    | done _ _ _ hstep' =>
      rw [hstep'] at hstep
      cases hstep
    | load hclass _ _ _ hstep' =>
      rw [hstep'] at hstep
      cases hstep
      exact hother _ (by simp [Insn.writes, hclass])
    | alu hclass _ _ _ hstep' =>
      rw [hstep'] at hstep
      cases hstep
      exact hother _ (by rcases hclass with hclass | hclass <;> simp [Insn.writes, hclass])
    | jump _ _ _ _ _ _ hstep' =>
      rw [hstep'] at hstep
      cases hstep
      exact hbefore

theorem Executed.framePointer (htracks : Tracks bytes)
    (hm : Executed bytes context initialRegisters m written) : 10 ∉ written := by
  induction hm with
  | start => simp
  | @next m m' written insn hm hinsn hstep ih =>
    obtain ⟨mask, out, successors, hallowed, -⟩ := hm.allowed h hinsn
    have hframe := (htracks context m written hm insn hinsn).frame
    rw [List.mem_append]
    rintro (hmem | hmem)
    · cases hallowed with
      | load hclass _ =>
        have hdst : insn.dst = 10 := by simpa [Insn.writes, hclass, eq_comm] using hmem
        exact hframe hclass hdst
      | alu hclass htransfer =>
        obtain ⟨-, -, -, hne, -⟩ := transferAlu_ok htransfer
        have hdst : insn.dst = 10 := by
          rcases hclass with hclass | hclass <;>
            simpa [Insn.writes, hclass, eq_comm] using hmem
        exact hne hdst
      | jump hclass _ =>
        rcases hclass with hclass | hclass <;> simp [Insn.writes, hclass] at hmem
    · exact ih hmem

end

/-! ## Isolation -/

theorem Isolated.tracks (h : Isolated bytes) (hverify : verify programType bytes = some (.ok ())) :
    Tracks bytes := by
  obtain ⟨incoming, haccepted⟩ := accepted_of_verify hverify
  intro context m written hm insn hinsn
  refine ⟨fun hclass hneg => ?_, fun hclass hdst => ?_,
    fun hclass => (h.contextPointer context m written hm insn hinsn hclass).2.1⟩
  · have hread : insn.dst ∈ insn.reads := by
      rcases hclass with hclass | hclass <;> simp [Insn.reads, hclass, hneg]
    obtain ⟨mask, out, successors, hallowed, -⟩ := hm.allowed haccepted hinsn
    have hframe : insn.dst ≠ 10 := by
      cases hallowed with
      | load | jump => omega
      | alu _ htransfer =>
        obtain ⟨-, -, -, hne, -⟩ := transferAlu_ok htransfer
        exact hne
    rcases h.initialized context m written hm insn hinsn _ hread with hmem | hone | hten
    · exact .inl hmem
    · exact .inr hone
    · exact absurd hten hframe
  · obtain ⟨mask, out, successors, hallowed, -, hsteps⟩ := hm.allowed haccepted hinsn
    cases hsteps with
    | load _ _ _ _ hstep =>
      refine (h.framePointer context _ _ (hm.next hinsn hstep)).1 ?_
      simp [Insn.writes, hclass, hdst]
    | done | alu | jump => omega

/-- A verified device program is isolated exactly when no run of it negates a
register that the run has not written, loads into r10, or loads after writing
r1. -/
theorem isolated_iff (hverify : verify progTypeCgroupDevice bytes = some (.ok ())) :
    Isolated bytes ↔ Tracks bytes := by
  obtain ⟨incoming, haccepted⟩ := accepted_of_verify hverify
  refine ⟨fun h => h.tracks hverify, fun htracks => ?_⟩
  have hreads : ∀ context m written, Executed bytes context initialRegisters m written →
      ∀ insn, decode bytes m.pc = some insn → ∀ r ∈ insn.reads, r ∈ written ∨ r = 1 ∨ r = 10 := by
    intro context m written hm insn hinsn
    obtain ⟨mask, out, successors, hallowed, hwritten, -⟩ := hm.allowed haccepted hinsn
    exact hallowed.reads hwritten (htracks context m written hm insn hinsn)
  refine ⟨hreads, fun context registers registers' hsame hsame' => ?_,
    fun context m written hm => ?_, fun context m written hm insn hinsn hclass => ?_⟩
  · rw [executeWith_agree haccepted (hreads context) hsame,
      executeWith_agree haccepted (hreads context) hsame']
  · have hframe := hm.framePointer haccepted htracks
    exact ⟨hframe, hm.unwritten haccepted hframe⟩
  · have hpointer := (htracks context m written hm insn hinsn).pointer hclass
    obtain ⟨mask, out, successors, hallowed, -⟩ := hm.allowed haccepted hinsn
    refine ⟨?_, hpointer, hm.unwritten haccepted hpointer⟩
    cases hallowed with
    | load _ htransfer =>
      obtain ⟨⟨hsrc, -⟩, -⟩ := transferLoad_ok htransfer
      exact hsrc
    | alu | jump => omega

theorem isolated_iff_deviceDecision : Isolated deviceDecision ↔ Tracks deviceDecision :=
  isolated_iff verify_deviceDecision

/-- `r0 = -r0; exit`. -/
def negateUnset : List (BitVec 8) := encode 0x87 0 0 0 0 ++ encode 0x95 0 0 0 0

/-- The verifier treats a negation like a move and does not ask for its operand:
this program is accepted and returns what r0 happened to hold, negated. -/
theorem negateUnset_leaks :
    verify progTypeCgroupDevice negateUnset = some (.ok ()) ∧ ¬ Isolated negateUnset := by
  refine ⟨by decide, fun h => ?_⟩
  have hsame := h.independent (0, 0, 0) initialRegisters
    (Function.update initialRegisters 0 1) ⟨rfl, rfl⟩ ⟨by simp, by simp⟩
  revert hsame
  decide

end Kinakaze.Bpf
