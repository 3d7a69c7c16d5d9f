import Kinakaze.Classic.Program

/-!
# Accepted programs run

* `effect`: what an instruction of a valid program does.
* `scan_spec`: the second pass settles on a mask for each instruction.
-/

namespace Kinakaze.Classic

open Library

variable {i : Instruction} {code : List Instruction} {packet : Packet}

/-! ## Instructions -/

/-- The scratch word the instruction stores. -/
def Instruction.stores (i : Instruction) : Option Nat :=
  if i.among scratchStores then some i.k.toNat else none

/-- The scratch word the instruction reads. -/
def Instruction.loads (i : Instruction) : Option Nat :=
  if i.among scratchLoads then some i.k.toNat else none

/-- How many instructions are skipped on the ways on from here. -/
def Instruction.targets (i : Instruction) : List Nat :=
  if i.among returns then []
  else if i.code.toNat = 0x05 then [i.k.toNat]
  else if i.among conditionalJumps then [i.jt.toNat, i.jf.toNat]
  else [0]

theorem among_iff {codes : List Nat} : i.among codes = true ↔ i.code.toNat ∈ codes := by
  simp [Instruction.among]

/-- The kinds of instruction that the first pass accepts. -/
inductive Valid (i : Instruction) (remaining : Nat) : Prop
  | plain (h : i.code.toNat ∈ plainCodes)
  | absolute (h : i.code.toNat ∈ absoluteLoads)
  | indirect (h : i.code.toNat ∈ indirectLoads)
  | load (h : i.code.toNat ∈ scratchLoads) (hk : i.k.toNat < 16)
  | store (h : i.code.toNat ∈ scratchStores) (hk : i.k.toNat < 16)
  | alu (h : i.code.toNat ∈ aluCodes ++ divideCodes ++ shiftCodes)
  | jump (h : i.code.toNat = 0x05) (hk : i.k.toNat < remaining)
  | branch (h : i.code.toNat ∈ conditionalJumps) (ht : i.jt.toNat < remaining)
      (hf : i.jf.toNat < remaining)

variable {remaining target : Nat}

theorem valid_cases (h : i.valid remaining = true) : Valid i remaining := by
  unfold Instruction.valid at h
  simp only [Bool.and_eq_true, Bool.or_eq_true, decide_eq_true_eq, among_iff] at h
  by_cases hplain : i.code.toNat ∈ plainCodes
  · exact .plain hplain
  rw [if_neg hplain] at h
  by_cases habsolute : i.code.toNat ∈ absoluteLoads
  · exact .absolute habsolute
  rw [if_neg habsolute] at h
  by_cases hindirect : i.code.toNat ∈ indirectLoads
  · exact .indirect hindirect
  rw [if_neg hindirect] at h
  split at h
  · next hscratch =>
    rcases hscratch with ⟨hload | hstore, hk⟩
    · exact .load hload hk
    · exact .store hstore hk
  split at h
  · next halu => exact .alu (by simp [halu])
  split at h
  · next hdivide => exact .alu (by simp [hdivide.1])
  split at h
  · next hshift => exact .alu (by simp [hshift.1])
  split at h
  · next hjump => exact .jump hjump.1 hjump.2
  · simp only [Bool.and_eq_true, decide_eq_true_eq, among_iff] at h
    exact .branch h.1.1 h.1.2 h.2

/-! ## What an instruction does -/

/-- What an instruction leads to from given registers, whatever the scratch words. -/
inductive Effect (packet : Packet) (i : Instruction) (a x : BitVec 32) (pc : Nat) : Prop
  | done (value : BitVec 32)
      (h : ∀ memory : Memory, Machine.execute ⟨a, x, memory, pc⟩ packet i = .ok (.done value))
  | next (a' x' : BitVec 32) (target : Nat) (htarget : target ∈ i.targets) (hs : i.stores = none)
      (h : ∀ memory : Memory,
        Machine.execute ⟨a, x, memory, pc⟩ packet i = .ok (.next ⟨a', x', memory, pc + target⟩))
  | load (k : Nat) (hk : k < 16) (hl : i.loads = some k) (hs : i.stores = none)
      (htarget : 0 ∈ i.targets) (a' x' : BitVec 32 → BitVec 32)
      (h : ∀ memory : Memory, Machine.execute ⟨a, x, memory, pc⟩ packet i =
        .ok (.next ⟨a' (memory[k]), x' (memory[k]), memory, pc⟩))
  | store (k : Nat) (hk : k < 16) (hs : i.stores = some k) (htarget : 0 ∈ i.targets)
      (value : BitVec 32)
      (h : ∀ memory : Memory, Machine.execute ⟨a, x, memory, pc⟩ packet i =
        .ok (.next ⟨a, x, memory.set k value, pc⟩))

variable {memory : Memory}

theorem read_lt {k : BitVec 32} (hk : k.toNat < 16) : memory.read k = .ok (memory[k.toNat]) := by
  unfold Memory.read
  rw [Vector.getElem?_eq_getElem hk]

theorem write_lt {k value : BitVec 32} (hk : k.toNat < 16) :
    memory.write k value = .ok (memory.set k.toNat value) := by
  unfold Memory.write
  rw [dif_pos hk]

variable {n pc : Nat}

theorem alu_known (h : n ∈ aluCodes ++ divideCodes ++ shiftCodes) (a rhs : BitVec 32) :
    ∃ value : Option (BitVec 32), alu n a rhs = .ok value := by
  simp only [aluCodes, divideCodes, shiftCodes, List.cons_append, List.nil_append,
    List.mem_cons, List.not_mem_nil, or_false] at h
  rcases h with rfl | rfl | rfl | rfl | rfl | rfl | rfl | rfl | rfl | rfl | rfl | rfl | rfl |
    rfl | rfl | rfl | rfl | rfl | rfl | rfl | rfl <;> exact ⟨_, rfl⟩

theorem taken_known (h : n ∈ conditionalJumps) (a rhs : BitVec 32) :
    ∃ value : Bool, taken n a rhs = .ok value := by
  simp only [conditionalJumps, List.mem_cons, List.not_mem_nil, or_false] at h
  rcases h with rfl | rfl | rfl | rfl | rfl | rfl | rfl | rfl <;> exact ⟨_, rfl⟩

theorem eq_of_code (h : i.code.toNat = n) : i = ⟨.ofNat 16 n, i.jt, i.jf, i.k⟩ := by
  have hcode : i.code = .ofNat 16 n := by rw [← h]; simp
  rw [← hcode]

theorem alu_targets (h : i.code.toNat ∈ aluCodes ++ divideCodes ++ shiftCodes) :
    i.targets = [0] ∧ i.stores = none := by
  simp only [aluCodes, divideCodes, shiftCodes, List.cons_append, List.nil_append,
    List.mem_cons, List.not_mem_nil, or_false] at h
  rcases h with h | h | h | h | h | h | h | h | h | h | h | h | h | h | h | h | h | h | h | h | h
    <;> (rw [eq_of_code h]; exact ⟨rfl, rfl⟩)

theorem execute_alu (h : i.code.toNat ∈ aluCodes ++ divideCodes ++ shiftCodes) (m : Machine) :
    m.execute packet i = (alu i.code.toNat m.a (m.rhs i)).map m.assign := by
  simp only [aluCodes, divideCodes, shiftCodes, List.cons_append, List.nil_append,
    List.mem_cons, List.not_mem_nil, or_false] at h
  rcases h with h | h | h | h | h | h | h | h | h | h | h | h | h | h | h | h | h | h | h | h | h
    <;> (rw [eq_of_code h]; simp [Machine.execute, Instruction.among, absoluteLoads, indirectLoads])

theorem branch_targets (h : i.code.toNat ∈ conditionalJumps) :
    i.targets = [i.jt.toNat, i.jf.toNat] ∧ i.stores = none := by
  simp only [conditionalJumps, List.mem_cons, List.not_mem_nil, or_false] at h
  rcases h with h | h | h | h | h | h | h | h <;> (rw [eq_of_code h]; exact ⟨rfl, rfl⟩)

theorem execute_branch (h : i.code.toNat ∈ conditionalJumps) (m : Machine) :
    m.execute packet i = (taken i.code.toNat m.a (m.rhs i)).map fun take =>
      .next { m with pc := m.pc + (if take then i.jt else i.jf).toNat } := by
  simp only [conditionalJumps, List.mem_cons, List.not_mem_nil, or_false] at h
  rcases h with h | h | h | h | h | h | h | h
    <;> (rw [eq_of_code h]; simp [Machine.execute, Instruction.among, absoluteLoads, indirectLoads])

variable {a x : BitVec 32}

theorem Effect.of_assign (htargets : i.targets = [0]) (hstores : i.stores = none)
    (value : Option (BitVec 32))
    (h : ∀ memory : Memory, Machine.execute ⟨a, x, memory, pc⟩ packet i =
      .ok (Machine.assign ⟨a, x, memory, pc⟩ value)) : Effect packet i a x pc := by
  cases value with
  | some value => exact .next value x 0 (by simp [htargets]) hstores h
  | none => exact .done 0 h

theorem Effect.of_loadAncillary (htargets : i.targets = [0]) (hstores : i.stores = none)
    (h : ∀ m : Machine, m.execute packet i = .ok (m.loadAncillary packet i.k)) :
    Effect packet i a x pc := by
  by_cases hfield : i.k - AD_OFF = 40
  · refine .next (a ^^^ x) x 0 (by simp [htargets]) hstores fun memory => ?_
    rw [h, Machine.loadAncillary, if_pos hfield]
    rfl
  · cases hvalue : packet.ancillary (i.k - AD_OFF) a x with
    | some value =>
      refine .next value x 0 (by simp [htargets]) hstores fun memory => ?_
      rw [h, Machine.loadAncillary, if_neg hfield]
      simp only [hvalue]
      rfl
    | none =>
      refine .done (if i.k - AD_OFF = 8 ∨ i.k - AD_OFF = 28 then a else 0) fun memory => ?_
      rw [h, Machine.loadAncillary, if_neg hfield]
      simp only [hvalue]

theorem Effect.of_plain (h : i.code.toNat ∈ plainCodes) : Effect packet i a x pc := by
  simp only [plainCodes, List.mem_cons, List.not_mem_nil, or_false] at h
  rcases h with h | h | h | h | h | h | h | h | h <;> rw [eq_of_code h]
  · exact .next i.k x 0 (List.mem_singleton.mpr rfl) rfl fun memory => rfl
  · exact .next a i.k 0 (List.mem_singleton.mpr rfl) rfl fun memory => rfl
  · exact .next packet.len x 0 (List.mem_singleton.mpr rfl) rfl fun memory => rfl
  · exact .next a packet.len 0 (List.mem_singleton.mpr rfl) rfl fun memory => rfl
  · cases hvalue : packet.load i.k 1 with
    | some value =>
      refine .next a ((value &&& 15) * 4) 0 (List.mem_singleton.mpr rfl) rfl fun memory => ?_
      simp [Machine.execute, Instruction.among, absoluteLoads, indirectLoads, hvalue]
    | none =>
      refine .done 0 fun memory => ?_
      simp [Machine.execute, Instruction.among, absoluteLoads, indirectLoads, hvalue]
  · exact .next a a 0 (List.mem_singleton.mpr rfl) rfl fun memory => rfl
  · exact .next x x 0 (List.mem_singleton.mpr rfl) rfl fun memory => rfl
  · exact .done i.k fun memory => rfl
  · exact .done a fun memory => rfl

theorem Valid.effect (h : Valid i remaining) (packet : Packet)
    (a x : BitVec 32) (pc : Nat) : Effect packet i a x pc := by
  cases h with
  | plain h => exact .of_plain h
  | absolute h =>
    simp only [absoluteLoads, List.mem_cons, List.not_mem_nil, or_false] at h
    by_cases hk : AD_OFF ≤ i.k
    · rcases h with h | h | h <;> rw [eq_of_code h] <;>
        exact .of_loadAncillary rfl rfl fun m => by
          simp [Machine.execute, Instruction.among, absoluteLoads, hk]
    · rcases h with h | h | h <;> rw [eq_of_code h] <;>
        exact .of_assign rfl rfl _ fun memory => by
          simp [Machine.execute, Instruction.among, absoluteLoads, hk, Machine.loadPacket]
          rfl
  | indirect h =>
    simp only [indirectLoads, List.mem_cons, List.not_mem_nil, or_false] at h
    rcases h with h | h | h <;> rw [eq_of_code h] <;>
      exact .of_assign rfl rfl _ fun memory => by
        simp [Machine.execute, Instruction.among, absoluteLoads, indirectLoads, Machine.loadPacket]
        rfl
  | load h hk =>
    simp only [scratchLoads, List.mem_cons, List.not_mem_nil, or_false] at h
    rcases h with h | h <;> rw [eq_of_code h]
    · refine .load i.k.toNat hk rfl rfl (List.mem_singleton.mpr rfl) id (fun _ => x)
        fun memory => ?_
      simp [Machine.execute, read_lt hk, Except.map]
    · refine .load i.k.toNat hk rfl rfl (List.mem_singleton.mpr rfl) (fun _ => a) id
        fun memory => ?_
      simp [Machine.execute, read_lt hk, Except.map]
  | store h hk =>
    simp only [scratchStores, List.mem_cons, List.not_mem_nil, or_false] at h
    rcases h with h | h <;> rw [eq_of_code h]
    · refine .store i.k.toNat hk rfl (List.mem_singleton.mpr rfl) a fun memory => ?_
      simp [Machine.execute, write_lt hk, Except.map]
    · refine .store i.k.toNat hk rfl (List.mem_singleton.mpr rfl) x fun memory => ?_
      simp [Machine.execute, write_lt hk, Except.map]
  | alu h =>
    obtain ⟨htargets, hstores⟩ := alu_targets h
    obtain ⟨value, hvalue⟩ := alu_known h a (Machine.rhs ⟨a, x, .replicate 16 0, pc⟩ i)
    refine .of_assign htargets hstores value fun memory => ?_
    have hrhs : Machine.rhs ⟨a, x, memory, pc⟩ i = Machine.rhs ⟨a, x, .replicate 16 0, pc⟩ i :=
      rfl
    rw [execute_alu h, hrhs, hvalue]
    rfl
  | jump h hk =>
    rw [eq_of_code h]
    exact .next a x i.k.toNat (List.mem_singleton.mpr rfl) rfl fun memory => by
      simp [Machine.execute, Instruction.among, absoluteLoads, indirectLoads]
  | branch h ht hf =>
    obtain ⟨htargets, hstores⟩ := branch_targets h
    obtain ⟨take, htake⟩ := taken_known h a (Machine.rhs ⟨a, x, .replicate 16 0, pc⟩ i)
    refine .next a x (if take then i.jt else i.jf).toNat ?_ hstores fun memory => ?_
    · rw [htargets]
      cases take <;> simp
    have hrhs : Machine.rhs ⟨a, x, memory, pc⟩ i = Machine.rhs ⟨a, x, .replicate 16 0, pc⟩ i := rfl
    rw [execute_branch h, hrhs, htake]
    rfl

/-! ## The second pass -/

/-- Every word of the one mask is in the other. -/
def Mask.below (mask mask' : Mask) : Prop := ∀ k : Nat, mask.has k = true → mask'.has k = true

theorem Mask.below_refl (mask : Mask) : mask.below mask := fun _ h => h

theorem Mask.below_trans {a b c : Mask} (hab : a.below b) (hbc : b.below c) : a.below c :=
  fun k h => hbc k (hab k h)

theorem Mask.and_below_left (a b : Mask) : Mask.below (a &&& b) a := by
  intro k h
  simp only [Mask.has, BitVec.getLsbD_and, Bool.and_eq_true] at h
  exact h.1

theorem Mask.and_below_right (a b : Mask) : Mask.below (a &&& b) b := by
  intro k h
  simp only [Mask.has, BitVec.getLsbD_and, Bool.and_eq_true] at h
  exact h.2

/-- The scratch words that hold a value behind the instruction. -/
def Instruction.after (i : Instruction) (mask : Mask) : Mask :=
  if i.among scratchStores then mask ||| 1#16 <<< i.k.toNat else mask

theorem has_after {mask : Mask} {k : Nat} (h : (i.after mask).has k = true) :
    mask.has k = true ∨ i.stores = some k := by
  unfold Instruction.after at h
  unfold Instruction.stores
  split at h
  · next hstore =>
    rw [if_pos hstore]
    simp only [Mask.has, BitVec.getLsbD_or, BitVec.getLsbD_shiftLeft, Bool.or_eq_true,
      Bool.and_eq_true, BitVec.getLsbD_one, Bool.not_eq_true', decide_eq_true_eq,
      decide_eq_false_iff_not] at h
    rcases h with h | h
    · exact .inl h
    · exact .inr (congrArg some (by omega))
  · exact .inl h

theorem Scan.join_below (s : Scan) (target q : Nat) : ((s.join target).masks q).below (s.masks q)
    := by
  unfold Scan.join
  by_cases hq : q = target
  · subst hq
    simpa using Mask.and_below_left (s.masks q) s.initialized
  · simpa [Function.update_of_ne hq] using Mask.below_refl (s.masks q)

theorem Scan.join_target (s : Scan) (target : Nat) :
    ((s.join target).masks target).below s.initialized := by
  simpa [Scan.join] using Mask.and_below_right (s.masks target) s.initialized

/-- What the second pass does at an instruction: the masks only shrink, the word read is
in the mask there, and every way on is told what is stored behind the instruction. -/
theorem Scan.visit_spec {s s' : Scan} (h : s.visit pc i = some s') :
    (∀ q : Nat, (s'.masks q).below (s.masks q)) ∧
    (∀ k : Nat, i.loads = some k → Mask.has (s.initialized &&& s.masks pc) k = true) ∧
    ∀ target ∈ i.targets,
      target = 0 ∧ s'.initialized.below (i.after (s.initialized &&& s.masks pc)) ∨
        (s'.masks (pc + 1 + target)).below (i.after (s.initialized &&& s.masks pc)) := by
  unfold Scan.visit at h
  simp only at h
  split at h
  · next hstore =>
    cases h
    have hload : i.loads = none := by
      simp only [among_iff, scratchStores, List.mem_cons, List.not_mem_nil, or_false] at hstore
      rcases hstore with hc | hc <;> (rw [eq_of_code hc]; rfl)
    have htargets : i.targets = [0] := by
      simp only [among_iff, scratchStores, List.mem_cons, List.not_mem_nil, or_false] at hstore
      rcases hstore with hc | hc <;> (rw [eq_of_code hc]; rfl)
    refine ⟨fun q => Mask.below_refl _, by simp [hload], fun target htarget => .inl ⟨?_, ?_⟩⟩
    · simpa [htargets] using htarget
    · rw [Instruction.after, if_pos hstore]
      exact Mask.below_refl _
  · next hstore =>
    have hafter : ∀ mask : Mask, i.after mask = mask := fun mask => if_neg hstore
    simp only [hafter]
    split at h
    · next hload =>
      split at h
      · next hhas =>
        cases h
        have htargets : i.targets = [0] := by
          simp only [among_iff, scratchLoads, List.mem_cons, List.not_mem_nil, or_false] at hload
          rcases hload with hc | hc <;> (rw [eq_of_code hc]; rfl)
        refine ⟨fun q => Mask.below_refl _, fun k hk => ?_, fun target htarget => .inl
          ⟨?_, Mask.below_refl _⟩⟩
        · rw [Instruction.loads, if_pos hload] at hk
          cases hk
          exact hhas
        · simpa [htargets] using htarget
      · cases h
    · next hload =>
      have hnone : i.loads = none := if_neg hload
      split at h
      · next hjump =>
        cases h
        have htargets : i.targets = [i.k.toNat] := by
          rw [eq_of_code hjump]
          rfl
        refine ⟨fun q => Scan.join_below _ _ q, by simp [hnone], fun target htarget => ?_⟩
        obtain rfl : target = i.k.toNat := by simpa [htargets] using htarget
        exact .inr (Scan.join_target _ _)
      · next hjump =>
        split at h
        · next hbranch =>
          cases h
          have htargets : i.targets = [i.jt.toNat, i.jf.toNat] :=
            (branch_targets (among_iff.mp hbranch)).1
          refine ⟨fun q => Mask.below_trans (Scan.join_below _ _ q)
            (Scan.join_below _ _ q), by simp [hnone], fun target htarget => ?_⟩
          rw [htargets, List.mem_pair] at htarget
          rcases htarget with rfl | rfl
          · exact .inr (Mask.below_trans (Scan.join_below _ _ _) (Scan.join_target _ _))
          · exact .inr (Scan.join_target _ _)
        · next hbranch =>
          cases h
          refine ⟨fun q => Mask.below_refl _, by simp [hnone], fun target htarget => .inl
            ⟨?_, Mask.below_refl _⟩⟩
          unfold Instruction.targets at htarget
          rw [if_neg hjump, if_neg hbranch] at htarget
          split at htarget
          · cases htarget
          · simpa using htarget

/-- The masks the second pass has settled on for the instructions from `pc` on. -/
structure Scanned (pc : Nat) (code : List Instruction) (incoming : Nat → Mask) : Prop where
  load : ∀ (index : Nat) (i : Instruction) (k : Nat), code[index]? = some i → i.loads = some k →
    (incoming (pc + index)).has k = true
  edge : ∀ (index : Nat) (i : Instruction) (target : Nat), code[index]? = some i →
    target ∈ i.targets → index + 1 + target < code.length →
    (incoming (pc + (index + 1 + target))).below (i.after (incoming (pc + index)))

theorem scan_spec {s s' : Scan} (h : scan pc code s = some s') :
    ∃ incoming : Nat → Mask, Scanned pc code incoming ∧
      (∀ q : Nat, pc ≤ q → (incoming q).below (s.masks q)) ∧
      (code ≠ [] → (incoming pc).below s.initialized) := by
  induction code generalizing pc s with
  | nil => exact ⟨s.masks, ⟨by simp, by simp⟩, fun q _ => Mask.below_refl _, by simp⟩
  | cons i rest ih =>
    obtain ⟨t, hvisit, hrest⟩ := Option.bind_eq_some_iff.mp h
    obtain ⟨incoming, hscanned, hmasks, hnext⟩ := ih hrest
    obtain ⟨hshrinks, hload, htargets⟩ := Scan.visit_spec hvisit
    have hhere : Function.update incoming pc (s.initialized &&& s.masks pc) pc =
        (s.initialized &&& s.masks pc) := Function.update_self ..
    have hthere : ∀ q : Nat, pc < q →
        Function.update incoming pc (s.initialized &&& s.masks pc) q = incoming q :=
      fun q hq => Function.update_of_ne (by omega) ..
    refine ⟨Function.update incoming pc (s.initialized &&& s.masks pc), ⟨?_, ?_⟩,
      fun q hq => ?_, fun _ => ?_⟩
    · intro index j k hj hk
      cases index with
      | zero =>
        obtain rfl : i = j := by simpa using hj
        rw [Nat.add_zero, hhere]
        exact hload k hk
      | succ index =>
        rw [hthere _ (by omega), show pc + (index + 1) = pc + 1 + index by omega]
        exact hscanned.load index j k (by simpa using hj) hk
    · intro index j target hj htarget hlt
      rw [hthere _ (by omega)]
      cases index with
      | zero =>
        obtain rfl : i = j := by simpa using hj
        rw [show pc + 0 = pc from rfl, hhere, show pc + (0 + 1 + target) = pc + 1 + target by
          omega]
        rcases htargets target htarget with ⟨rfl, hbelow⟩ | hbelow
        · refine Mask.below_trans (hnext ?_) hbelow
          rintro rfl
          simp at hlt
        · exact Mask.below_trans (hmasks _ (by omega)) hbelow
      | succ index =>
        rw [hthere _ (by omega), show pc + (index + 1) = pc + 1 + index by omega,
          show pc + (index + 1 + 1 + target) = pc + 1 + (index + 1 + target) by omega]
        refine hscanned.edge index j target (by simpa using hj) htarget ?_
        simp only [List.length_cons] at hlt
        omega
    · rcases Nat.lt_or_eq_of_le hq with hlt | rfl
      · rw [hthere q hlt]
        exact Mask.below_trans (hmasks q hlt) (hshrinks q)
      · rw [hhere]
        exact Mask.and_below_right _ _
    · rw [hhere]
      exact Mask.and_below_left _ _

/-! ## Accepted programs -/

/-- What the two passes promise about a program. -/
structure Accepted (code : List Instruction) (incoming : Nat → Mask) : Prop where
  nonempty : code ≠ []
  valid : ∀ (pc : Nat) (i : Instruction), code[pc]? = some i → Valid i (code.length - pc - 1)
  last : ∀ (pc : Nat) (i : Instruction), code[pc]? = some i → pc + 1 = code.length → i.targets = []
  scanned : Scanned 0 code incoming
  start : (incoming 0).below 0

theorem valid_of_validAll (h : validAll code = true) (pc : Nat) (hi : code[pc]? = some i) :
    i.valid (code.length - pc - 1) = true := by
  induction code generalizing pc with
  | nil => simp at hi
  | cons j rest ih =>
    simp only [validAll, Bool.and_eq_true] at h
    cases pc with
    | zero =>
      obtain rfl : j = i := by simpa using hi
      simpa using h.1
    | succ pc =>
      have hrest := ih h.2 pc (by simpa using hi)
      rwa [List.length_cons, show rest.length + 1 - (pc + 1) - 1 = rest.length - pc - 1 by
        omega]

theorem new_ok {accepted : List Instruction} (h : Program.new code = .ok accepted) :
    accepted = code ∧ ∃ incoming : Nat → Mask, Accepted code incoming := by
  unfold Program.new at h
  split at h
  · cases h
  next hlength =>
  split at h
  · cases h
  next hvalid =>
  split at h
  · cases h
  next hlast =>
  split at h
  · cases h
  next s hscan =>
  cases h
  simp only [Bool.or_eq_true, not_or, List.isEmpty_iff] at hlength
  simp only [Bool.not_eq_true, Bool.not_eq_false'] at hvalid hlast
  obtain ⟨incoming, hscanned, -, hstart⟩ := scan_spec hscan
  refine ⟨rfl, incoming, hlength.1, fun pc i hi => valid_cases (valid_of_validAll hvalid pc hi),
    fun pc i hi hpc => ?_, hscanned, hstart hlength.1⟩
  have hget : code.getLast? = some i := by
    rw [List.getLast?_eq_getElem?, ← hi]
    congr 1
    omega
  rw [hget] at hlast
  exact if_pos (by simpa using hlast)

variable {incoming : Nat → Mask}

theorem Accepted.target_lt (h : Accepted code incoming)
    (hi : code[pc]? = some i) (htarget : target ∈ i.targets) : pc + 1 + target < code.length := by
  have hpc : pc < code.length := (List.getElem?_eq_some_iff.mp hi).1
  have hvalid := h.valid pc i hi
  have hlast : pc + 1 ≠ code.length := by
    intro hlast
    rw [h.last pc i hi hlast] at htarget
    cases htarget
  unfold Instruction.targets at htarget
  split at htarget
  · cases htarget
  split at htarget
  · next hjump =>
    obtain rfl : target = i.k.toNat := by simpa using htarget
    cases hvalid with
    | jump _ hk => omega
    | plain h | absolute h | indirect h | load h _ | store h _ | alu h | branch h _ _ =>
      rw [hjump] at h
      exact absurd h (by decide)
  split at htarget
  · next hbranch =>
    rw [among_iff] at hbranch
    have hbounds : i.jt.toNat < code.length - pc - 1 ∧ i.jf.toNat < code.length - pc - 1 := by
      cases hvalid with
      | branch _ ht hf => exact ⟨ht, hf⟩
      | jump h _ =>
        rw [h] at hbranch
        exact absurd hbranch (by decide)
      | plain h | absolute h | indirect h | load h _ | store h _ | alu h =>
        refine absurd h ?_
        revert hbranch
        generalize i.code.toNat = n
        simp only [conditionalJumps, List.mem_cons, List.not_mem_nil, or_false]
        rintro (rfl | rfl | rfl | rfl | rfl | rfl | rfl | rfl) <;> decide
    rw [List.mem_pair] at htarget
    rcases htarget with rfl | rfl <;> omega
  · obtain rfl : target = 0 := by simpa using htarget
    omega

/-! ## Runs -/

/-- The states of a run, each with the scratch words stored on the way to it. -/
inductive Executed (code : List Instruction) (packet : Packet) (memory : Memory) :
    Machine → List Nat → Prop
  | start : Executed code packet memory (.start memory) []
  | next {m m' : Machine} {stored : List Nat} {i : Instruction}
      (hm : Executed code packet memory m stored) (hi : code[m.pc]? = some i)
      (hstep : step code packet m = .ok (.next m')) :
      Executed code packet memory m' (i.stores.toList ++ stored)

/-- The program counter is in the program, and the mask there holds only words that the
run has stored. -/
def Tracked (code : List Instruction) (incoming : Nat → Mask) (pc : Nat) (stored : List Nat) :
    Prop :=
  pc < code.length ∧ ∀ k : Nat, (incoming pc).has k = true → k ∈ stored

/-- Two states that differ at most in scratch words that were never stored. -/
structure Agree (stored : List Nat) (m m' : Machine) : Prop where
  a : m.a = m'.a
  x : m.x = m'.x
  pc : m.pc = m'.pc
  memory : ∀ (k : Nat) (hk : k < 16), k ∈ stored → m.memory[k] = m'.memory[k]

theorem Agree.refl (stored : List Nat) (m : Machine) : Agree stored m m :=
  ⟨rfl, rfl, rfl, fun _ _ _ => rfl⟩

variable {stored : List Nat}

theorem Tracked.edge (h : Accepted code incoming) (ht : Tracked code incoming pc stored)
    (hi : code[pc]? = some i) (htarget : target ∈ i.targets) :
    Tracked code incoming (pc + 1 + target) (i.stores.toList ++ stored) := by
  have hlt := h.target_lt hi htarget
  refine ⟨hlt, fun k hk => ?_⟩
  have hbelow := h.scanned.edge pc i target hi htarget hlt
  rw [Nat.zero_add, Nat.zero_add] at hbelow
  rcases has_after (hbelow k hk) with hhas | hstores
  · exact List.mem_append_right _ (ht.2 k hhas)
  · simp [hstores]

/-- Two agreeing states take the same step: both end with one value, or both go on
to agreeing states further down. -/
inductive Together (code : List Instruction) (packet : Packet) (incoming : Nat → Mask)
    (stored : List Nat) (m m' : Machine) : Prop
  | done (value : BitVec 32) (h : step code packet m = .ok (.done value))
      (h' : step code packet m' = .ok (.done value))
  | next (i : Instruction) (n n' : Machine) (hi : code[m.pc]? = some i)
      (h : step code packet m = .ok (.next n)) (h' : step code packet m' = .ok (.next n'))
      (hagree : Agree (i.stores.toList ++ stored) n n') (hlt : m.pc < n.pc)
      (htracked : Tracked code incoming n.pc (i.stores.toList ++ stored))

variable {m : Machine}

theorem step_of_get (hi : code[m.pc]? = some i) :
    step code packet m = Machine.execute ⟨m.a, m.x, m.memory, m.pc + 1⟩ packet i := by
  rw [step, hi]

theorem Tracked.together {m' : Machine} (h : Accepted code incoming) (packet : Packet)
    (ht : Tracked code incoming m.pc stored)
    (hagree : Agree stored m m') : Together code packet incoming stored m m' := by
  obtain ⟨a, x, memory, pc⟩ := m
  obtain ⟨a', x', memory', pc'⟩ := m'
  obtain ⟨rfl, rfl, rfl, hmemory⟩ := hagree
  simp only at ht hmemory
  obtain ⟨i, hi⟩ : ∃ i : Instruction, code[pc]? = some i :=
    ⟨_, List.getElem?_eq_getElem ht.1⟩
  cases (h.valid pc i hi).effect packet a x (pc + 1) with
  | done value heffect =>
    exact .done value ((step_of_get hi).trans (heffect _)) ((step_of_get hi).trans (heffect _))
  | next b y target htarget hs heffect =>
    refine .next i _ _ hi ((step_of_get hi).trans (heffect _))
      ((step_of_get hi).trans (heffect _)) ⟨rfl, rfl, rfl, fun k hk hmem => ?_⟩ ?_
      (ht.edge h hi htarget)
    · exact hmemory k hk (by simpa [hs] using hmem)
    · simp only
      omega
  | load k hk hl hs htarget b y heffect =>
    -- The second pass has found the word among those stored.
    have hstored : k ∈ stored := by
      have hhas := h.scanned.load pc i k hi hl
      rw [Nat.zero_add] at hhas
      exact ht.2 k hhas
    have hword := hmemory k hk hstored
    refine .next i _ _ hi ((step_of_get hi).trans (heffect _))
      ((step_of_get hi).trans (heffect _)) ⟨?_, ?_, rfl, fun j hj hmem => ?_⟩ ?_
      (ht.edge h hi htarget)
    · exact congrArg b hword
    · exact congrArg y hword
    · exact hmemory j hj (by simpa [hs] using hmem)
    · simp only
      omega
  | store k hk hs htarget value heffect =>
    refine .next i _ _ hi ((step_of_get hi).trans (heffect _))
      ((step_of_get hi).trans (heffect _)) ⟨rfl, rfl, rfl, fun j hj hmem => ?_⟩ ?_
      (ht.edge h hi htarget)
    · by_cases hjk : k = j
      · subst hjk
        simp
      · have hold : j ∈ stored := by
          rw [hs] at hmem
          rcases List.mem_append.mp hmem with hmem | hmem
          · exact absurd (by simpa using hmem) (Ne.symm hjk)
          · exact hmem
        simpa [Vector.getElem_set_ne, hjk] using hmemory j hj hold
    · simp only
      omega

theorem Tracked.runFrom (h : Accepted code incoming) (packet : Packet) {fuel : Nat}
    (ht : Tracked code incoming m.pc stored) (hfuel : code.length ≤ m.pc + fuel) :
    ∃ value : BitVec 32, ∀ m' : Machine, Agree stored m m' →
      runFrom code packet fuel m' = some (.ok value) := by
  induction fuel generalizing m stored with
  | zero =>
    have hlt := ht.1
    omega
  | succ fuel ih =>
    cases ht.together h packet (.refl stored m) with
    | done value hstep _ =>
      refine ⟨value, fun m' hagree => ?_⟩
      rw [Classic.runFrom]
      cases ht.together h packet hagree with
      | done value' hone htwo =>
        rw [hstep] at hone
        cases hone
        rw [htwo]
      | next i n n' hi hone htwo _ _ _ =>
        rw [hstep] at hone
        cases hone
    | next i n n' hi hstep _ _ hlt htracked =>
      obtain ⟨value, hvalue⟩ := ih htracked (by omega)
      refine ⟨value, fun m' hagree => ?_⟩
      rw [Classic.runFrom]
      cases ht.together h packet hagree with
      | done value' hone htwo =>
        rw [hstep] at hone
        cases hone
      | next j o o' hj hone htwo hagree' _ _ =>
        rw [hstep] at hone
        cases hone
        obtain rfl := Option.some.inj (hi.symm.trans hj)
        rw [htwo]
        exact hvalue o' hagree'

theorem Tracked.start (h : Accepted code incoming) : Tracked code incoming 0 [] := by
  refine ⟨List.length_pos_iff.mpr h.nonempty, fun k hk => ?_⟩
  have hzero := h.start k hk
  simp [Mask.has] at hzero

theorem Executed.tracked (h : Accepted code incoming) (hm : Executed code packet memory m stored) :
    Tracked code incoming m.pc stored := by
  induction hm with
  | start => exact .start h
  | next hm hi hstep ih =>
    cases ih.together h packet (.refl _ _) with
    | done value hdone _ =>
      rw [hdone] at hstep
      cases hstep
    | next j n n' hj hnext _ _ _ htracked =>
      rw [hnext] at hstep
      cases hstep
      obtain rfl := Option.some.inj (hi.symm.trans hj)
      exact htracked

/-! ## Bytes -/

theorem decode_encode (i : Instruction) : Instruction.decode i.encode = i := by
  obtain ⟨code, jt, jf, k⟩ := i
  have hk := ofNat_ofLe_leBytes 4 rfl k
  have hcode := ofNat_ofLe_leBytes 2 rfl code
  simp only [Instruction.decode, Instruction.encode, Instruction.mk.injEq]
  refine ⟨?_, ?_, ?_, ?_⟩
  · simpa [leBytes] using hcode
  · simp [leBytes]
  · simp [leBytes]
  · simpa [leBytes] using hk

theorem length_encode (i : Instruction) : i.encode.length = 8 := by
  simp [Instruction.encode]

/-- An accepted program ends with one value on every packet, within as many
instructions as it has and from whatever scratch words; on the way no index is out of
range, every operation is known, and a scratch word is read only after it was stored.
The program comes back from its bytes. -/
theorem new_sound {accepted : List Instruction} (h : Program.new code = .ok accepted) :
    accepted = code ∧
    (∀ packet : Packet, ∃ value : BitVec 32, ∀ memory : Memory,
      Program.runWith memory code packet code.length = some (.ok value)) ∧
    (∀ (packet : Packet) (memory : Memory) (m : Machine) (stored : List Nat),
      Executed code packet memory m stored →
      ∃ (i : Instruction) (progress : Progress), code[m.pc]? = some i ∧
        step code packet m = .ok progress ∧ ∀ k : Nat, i.loads = some k → k ∈ stored) ∧
    Program.decode (Program.encode code) = .ok code := by
  obtain ⟨rfl, incoming, haccepted⟩ := new_ok h
  refine ⟨rfl, fun packet => ?_, fun packet memory m stored hm => ?_, ?_⟩
  · have hfuel : accepted.length ≤ (Machine.start (.replicate 16 0)).pc + accepted.length :=
      Nat.le_add_left ..
    obtain ⟨value, hvalue⟩ := Tracked.runFrom haccepted packet (.start haccepted) hfuel
    exact ⟨value, fun memory => hvalue _ ⟨rfl, rfl, rfl, nofun⟩⟩
  · have htracked := hm.tracked haccepted
    obtain ⟨i, hi⟩ : ∃ i : Instruction, accepted[m.pc]? = some i :=
      ⟨_, List.getElem?_eq_getElem htracked.1⟩
    have hloads : ∀ k : Nat, i.loads = some k → k ∈ stored := by
      intro k hk
      have hhas := haccepted.scanned.load m.pc _ k hi hk
      rw [Nat.zero_add] at hhas
      exact htracked.2 k hhas
    cases htracked.together haccepted packet (.refl stored m) with
    | done value hstep _ => exact ⟨i, _, hi, hstep, hloads⟩
    | next j n n' _ hstep _ _ _ _ => exact ⟨i, _, hi, hstep, hloads⟩
  · have hlength := length_flatMap_const length_encode accepted
    rw [Program.decode, Program.encode, if_neg (by rw [hlength]; simp),
      chunksExact_flatMap (by decide) _ length_encode, List.map_map]
    have hmap : accepted.map (Instruction.decode ∘ Instruction.encode) = accepted := by
      simp [Function.comp_def, decode_encode]
    rw [hmap, h]

/-- Doubles the length of a packet that is not empty, with a scratch word. -/
def doubleLength : List Instruction :=
  [⟨0x80, 0, 0, 0⟩, ⟨0x02, 0, 0, 3⟩, ⟨0x15, 2, 0, 0⟩, ⟨0x61, 0, 0, 3⟩, ⟨0x0c, 0, 0, 0⟩,
    ⟨0x16, 0, 0, 0⟩]

theorem new_doubleLength : Program.new doubleLength = .ok doubleLength := rfl

theorem new_sound_doubleLength : (∀ packet : Packet, ∃ value : BitVec 32, ∀ memory : Memory,
      Program.runWith memory doubleLength packet 6 = some (.ok value)) ∧
    Program.decode (Program.encode doubleLength) = .ok doubleLength :=
  have h := new_sound new_doubleLength
  ⟨h.2.1, h.2.2.2⟩

end Kinakaze.Classic
