import Kinakaze.Bpf.Verifier

/-!
# The interpreter

`execute` runs a program on a twelve-byte context.  It trusts the verifier:
register numbers and load offsets index arrays without a check, which a
program that was never verified turns into a panic.  A run is a sequence of
`step`s; `executeWithin` counts them.
-/

namespace Kinakaze.Bpf

/-- The eleven registers. -/
abbrev Registers := Nat → BitVec 64

structure Machine where
  registers : Registers
  pc : Nat

/-- `registers[register]`: eleven registers, so another index panics. -/
def readRegister (registers : Registers) (register : Nat) : Except (Fault Int) (BitVec 64) :=
  if register < 11 then .ok (registers register) else .error .panic

def writeRegister (registers : Registers) (register : Nat) (value : BitVec 64) :
    Except (Fault Int) Registers :=
  if register < 11 then .ok (Function.update registers register value) else .error .panic

/-! ## Loads -/

/-- The context as its twelve bytes, each word least significant byte first. -/
def rawContext (context : BitVec 32 × BitVec 32 × BitVec 32) : List (BitVec 8) :=
  [context.1, context.2.1, context.2.2].flatMap fun word =>
    [word.extractLsb' 0 8, word.extractLsb' 8 8, word.extractLsb' 16 8, word.extractLsb' 24 8]

def fromLeBytes : List (BitVec 8) → BitVec 64
  | [] => 0
  | byte :: rest => byte.setWidth 64 ||| fromLeBytes rest <<< 8

/-- The load of a LDX instruction; a slice outside the context panics. -/
def loadContext (context : BitVec 32 × BitVec 32 × BitVec 32) (insn : Insn) :
    Except (Fault Int) (BitVec 64) :=
  if insn.offset < 0 then .error (.error EIO)
  else if insn.offset.toNat + insn.width ≤ 12 then
    .ok (fromLeBytes ((rawContext context).drop insn.offset.toNat |>.take insn.width))
  else .error .panic

/-! ## Arithmetic -/

def alu32 (operation : Nat) (left right : BitVec 32) : Option (BitVec 32) :=
  match operation with
  | 0x00 => some (left + right)
  | 0x10 => some (left - right)
  | 0x20 => some (left * right)
  | 0x30 => some (if right = 0 then 0 else left / right)
  | 0x40 => some (left ||| right)
  | 0x50 => some (left &&& right)
  | 0x60 => some (left <<< (right &&& 31))
  | 0x70 => some (left >>> (right &&& 31))
  | 0x80 => some (-left)
  | 0x90 => some (if right = 0 then left else left % right)
  | 0xa0 => some (left ^^^ right)
  | 0xb0 => some right
  | 0xc0 => some (left.sshiftRight (right &&& 31).toNat)
  | _ => none

def alu64 (operation : Nat) (current source : BitVec 64) : Option (BitVec 64) :=
  match operation with
  | 0x00 => some (current + source)
  | 0x10 => some (current - source)
  | 0x20 => some (current * source)
  | 0x30 => some (if source = 0 then 0 else current / source)
  | 0x40 => some (current ||| source)
  | 0x50 => some (current &&& source)
  | 0x60 => some (current <<< (source &&& 63))
  | 0x70 => some (current >>> (source &&& 63))
  | 0x80 => some (-current)
  | 0x90 => some (if source = 0 then current else current % source)
  | 0xa0 => some (current ^^^ source)
  | 0xb0 => some source
  | 0xc0 => some (current.sshiftRight (source &&& 63).toNat)
  | _ => none

/-- The result of an ALU instruction: class 4 works on the low halves. -/
def aluValue (insn : Insn) (current source : BitVec 64) : Option (BitVec 64) :=
  if insn.class = 0x04 then
    (alu32 insn.operation (current.setWidth 32) (source.setWidth 32)).map (·.setWidth 64)
  else alu64 insn.operation current source

/-! ## Jumps -/

def compare {w : Nat} (operation : Nat) (left right : BitVec w) : Option Bool :=
  match operation with
  | 0x00 => some true
  | 0x10 => some (left == right)
  | 0x20 => some (right.ult left)
  | 0x30 => some (right.ule left)
  | 0x40 => some (left &&& right != 0)
  | 0x50 => some (left != right)
  | 0x60 => some (right.slt left)
  | 0x70 => some (right.sle left)
  | 0xa0 => some (left.ult right)
  | 0xb0 => some (left.ule right)
  | 0xc0 => some (left.slt right)
  | 0xd0 => some (left.sle right)
  | _ => none

/-- Whether a jump is taken: class 6 compares the low halves. -/
def jumpTaken (insn : Insn) (left right : BitVec 64) : Option Bool :=
  if insn.class = 0x06 then compare insn.operation (left.setWidth 32) (right.setWidth 32)
  else compare insn.operation left right

/-! ## Steps -/

/-- The second operand: a register, or the sign-extended immediate. -/
def sourceOperand (registers : Registers) (insn : Insn) : Except (Fault Int) (BitVec 64) :=
  if insn.sourceIsRegister then readRegister registers insn.src
  else .ok (insn.immediate.signExtend 64)

/-- What one instruction leads to. -/
inductive Progress where
  | done (value : BitVec 64)
  | next (m : Machine)

def orUnsupported {α : Type} (value : Option α) : Except (Fault Int) α :=
  match value with
  | some a => .ok a
  | none => .error (.error EIO)

def stepLoad (context : BitVec 32 × BitVec 32 × BitVec 32) (m : Machine) (insn : Insn) :
    Except (Fault Int) Progress := do
  let value ← loadContext context insn
  let registers ← writeRegister m.registers insn.dst value
  return .next ⟨registers, m.pc + 1⟩

def stepAlu (m : Machine) (insn : Insn) : Except (Fault Int) Progress := do
  let source ← sourceOperand m.registers insn
  let current ← readRegister m.registers insn.dst
  let value ← orUnsupported (aluValue insn current source)
  let registers ← writeRegister m.registers insn.dst value
  return .next ⟨registers, m.pc + 1⟩

def stepJump (count : Nat) (m : Machine) (insn : Insn) : Except (Fault Int) Progress :=
  if insn.operation = 0x90 then do
    return .done (← readRegister m.registers 0)
  else do
    let left ← readRegister m.registers insn.dst
    let right ← sourceOperand m.registers insn
    let taken ← orUnsupported (jumpTaken insn left right)
    if taken then
      let target ← (jumpTarget m.pc insn.offset count).mapError fun _ => .error EIO
      return .next ⟨m.registers, target⟩
    else
      return .next ⟨m.registers, m.pc + 1⟩

/-- One turn of the loop, at a program counter below `count`. -/
def step (bytes : List (BitVec 8)) (context : BitVec 32 × BitVec 32 × BitVec 32) (m : Machine) :
    Except (Fault Int) Progress :=
  match decode bytes m.pc with
  | none => .error .panic
  | some insn =>
    match insn.class with
    | 0x01 => stepLoad context m insn
    | 0x04 | 0x07 => stepAlu m insn
    | 0x05 | 0x06 => stepJump (bytes.length / insnSize) m insn
    | _ => .error (.error EIO)

/-- The loop, for at most `fuel` instructions; `none` when more are needed. -/
def executeFrom (bytes : List (BitVec 8)) (context : BitVec 32 × BitVec 32 × BitVec 32) :
    Nat → Machine → Option (Except (Fault Int) (BitVec 64))
  | fuel, m =>
    if m.pc < bytes.length / insnSize then
      match fuel with
      | 0 => none
      | fuel + 1 =>
        match step bytes context m with
        | .error fault => some (.error fault)
        | .ok (.done value) => some (.ok value)
        | .ok (.next m') => executeFrom bytes context fuel m'
    else some (.error (.error EIO))

/-- The registers a run starts with: r1 is the context pointer. -/
def initialRegisters : Registers := Function.update (fun _ => 0) 1 1

/-- A run from given register contents; no run takes more instructions than
the program has. -/
def executeWith (registers : Registers) (bytes : List (BitVec 8))
    (context : BitVec 32 × BitVec 32 × BitVec 32) : Option (Except (Fault Int) (BitVec 64)) :=
  executeFrom bytes context (bytes.length / insnSize) ⟨registers, 0⟩

def execute (bytes : List (BitVec 8)) (context : BitVec 32 × BitVec 32 × BitVec 32) :
    Option (Except (Fault Int) (BitVec 64)) :=
  executeWith initialRegisters bytes context

end Kinakaze.Bpf
