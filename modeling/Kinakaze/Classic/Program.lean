import Kinakaze.Library.LittleEndian

/-!
# Classic BPF

`Program.new` checks a vector of instructions, in one pass for opcodes, operands and
jump targets, in a second for scratch words that are read before they are stored.
`Program.run` trusts these checks: an index outside the program or the scratch words
and an operation it does not know end in a panic.
-/

namespace Kinakaze.Classic

open Library

def EINVAL : Int := 22

def MAX_INSNS : Nat := 4096

/-- `-4096i32 as u32`. -/
def AD_OFF : BitVec 32 := 0xfffff000

structure Instruction where
  code : BitVec 16
  jt : BitVec 8
  jf : BitVec 8
  k : BitVec 32

/-! ## The checks of one instruction -/

/-- Loads, register transfers and returns that are good with any operands. -/
def plainCodes : List Nat := [0x00, 0x01, 0x80, 0x81, 0xb1, 0x07, 0x87, 0x06, 0x16]

def absoluteLoads : List Nat := [0x20, 0x28, 0x30]

def indirectLoads : List Nat := [0x40, 0x48, 0x50]

def scratchLoads : List Nat := [0x60, 0x61]

def scratchStores : List Nat := [0x02, 0x03]

def aluCodes : List Nat :=
  [0x04, 0x0c, 0x14, 0x1c, 0x24, 0x2c, 0x3c, 0x44, 0x4c, 0x54, 0x5c, 0x6c, 0x7c, 0x84, 0x9c, 0xa4,
    0xac]

/-- Division and remainder by an immediate. -/
def divideCodes : List Nat := [0x34, 0x94]

/-- Shifts by an immediate. -/
def shiftCodes : List Nat := [0x64, 0x74]

def conditionalJumps : List Nat := [0x15, 0x1d, 0x25, 0x2d, 0x35, 0x3d, 0x45, 0x4d]

def returns : List Nat := [0x06, 0x16]

/-- The fields of the packet's metadata. -/
def ancillaryFields : List Nat := [0, 4, 8, 12, 16, 20, 24, 28, 32, 36, 40, 44, 48, 52, 56, 60]

/-- The code of the instruction is one of `codes`. -/
def Instruction.among (i : Instruction) (codes : List Nat) : Bool := codes.contains i.code.toNat

/-- The first pass accepts an instruction that `remaining` others follow. -/
def Instruction.valid (i : Instruction) (remaining : Nat) : Bool :=
  if i.among plainCodes then true
  else if i.among absoluteLoads then
    !(AD_OFF ≤ i.k) || ancillaryFields.contains (i.k - AD_OFF).toNat
  else if i.among indirectLoads then true
  else if (i.among scratchLoads || i.among scratchStores) && i.k.toNat < 16 then true
  else if i.among aluCodes then true
  else if i.among divideCodes && i.k != 0 then true
  else if i.among shiftCodes && i.k.toNat < 32 then true
  else if i.code.toNat = 0x05 && i.k.toNat < remaining then true
  else i.among conditionalJumps && i.jt.toNat < remaining && i.jf.toNat < remaining

def validAll : List Instruction → Bool
  | [] => true
  | i :: rest => i.valid rest.length && validAll rest

/-! ## Scratch words -/

/-- A set of scratch words. -/
abbrev Mask := BitVec 16

def Mask.has (mask : Mask) (k : Nat) : Bool := mask.getLsbD k

/-- The masks gathered at the jump targets, and the one at the instruction itself. -/
structure Scan where
  masks : Nat → Mask
  initialized : Mask

/-- `masks[target] &= initialized`; the first pass has bounded the target. -/
def Scan.join (s : Scan) (target : Nat) : Scan :=
  { s with masks := Function.update s.masks target (s.masks target &&& s.initialized) }

/-- What follows a jump is reached only by another jump. -/
def Scan.leave (s : Scan) : Scan := { s with initialized := BitVec.allOnes 16 }

/-- The second pass at `pc`; `none` refuses the program. -/
def Scan.visit (s : Scan) (pc : Nat) (i : Instruction) : Option Scan :=
  let s := { s with initialized := s.initialized &&& s.masks pc }
  if i.among scratchStores then
    some { s with initialized := s.initialized ||| 1#16 <<< i.k.toNat }
  else if i.among scratchLoads then
    if s.initialized.has i.k.toNat then some s else none
  else if i.code.toNat = 0x05 then some (s.join (pc + 1 + i.k.toNat)).leave
  else if i.among conditionalJumps then
    some ((s.join (pc + 1 + i.jt.toNat)).join (pc + 1 + i.jf.toNat)).leave
  else some s

def scan : Nat → List Instruction → Scan → Option Scan
  | _, [], s => some s
  | pc, i :: rest, s => (s.visit pc i).bind (scan (pc + 1) rest)

def Program.new (code : List Instruction) : Except Int (List Instruction) :=
  if code.isEmpty || MAX_INSNS < code.length then .error EINVAL
  else if !validAll code then .error EINVAL
  else if !code.getLast?.any (·.among returns) then .error EINVAL
  else
    match scan 0 code ⟨fun _ => BitVec.allOnes 16, 0⟩ with
    | none => .error EINVAL
    | some _ => .ok code

/-! ## Running -/

/-- `trait Packet`: its length, a load at a signed offset, and the metadata. -/
structure Packet where
  len : BitVec 32
  load : BitVec 32 → Nat → Option (BitVec 32)
  ancillary : BitVec 32 → BitVec 32 → BitVec 32 → Option (BitVec 32)

/-- The sixteen scratch words. -/
abbrev Memory := Vector (BitVec 32) 16

structure Machine where
  a : BitVec 32
  x : BitVec 32
  memory : Memory
  pc : Nat

/-- What the interpreter panics on. -/
inductive Fault where
  | index
  | unreachable

/-- What one instruction leads to. -/
inductive Progress where
  | done (value : BitVec 32)
  | next (m : Machine)

/-- `memory[k]`. -/
def Memory.read (memory : Memory) (k : BitVec 32) : Except Fault (BitVec 32) :=
  match memory[k.toNat]? with
  | some value => .ok value
  | none => .error .index

/-- `memory[k] = value`. -/
def Memory.write (memory : Memory) (k value : BitVec 32) : Except Fault Memory :=
  if h : k.toNat < 16 then .ok (memory.set k.toNat value) else .error .index

/-- The condition of a jump. -/
def taken (code : Nat) (a rhs : BitVec 32) : Except Fault Bool :=
  match code &&& 0xf0 with
  | 0x10 => .ok (a == rhs)
  | 0x20 => .ok (rhs.ult a)
  | 0x30 => .ok (rhs.ule a)
  | 0x40 => .ok (a &&& rhs != 0)
  | _ => .error .unreachable

/-- The accumulator after an ALU instruction; `none` is a division by zero.  The low
five bits of a shift count are used. -/
def alu (code : Nat) (a rhs : BitVec 32) : Except Fault (Option (BitVec 32)) :=
  match code &&& 0xf0 with
  | 0x00 => .ok (some (a + rhs))
  | 0x10 => .ok (some (a - rhs))
  | 0x20 => .ok (some (a * rhs))
  | 0x30 => .ok (if rhs = 0 then none else some (a / rhs))
  | 0x40 => .ok (some (a ||| rhs))
  | 0x50 => .ok (some (a &&& rhs))
  | 0x60 => .ok (some (a <<< (rhs &&& 31)))
  | 0x70 => .ok (some (a >>> (rhs &&& 31)))
  | 0x80 => .ok (some (-a))
  | 0x90 => .ok (if rhs = 0 then none else some (a % rhs))
  | 0xa0 => .ok (some (a ^^^ rhs))
  | _ => .error .unreachable

/-- The second operand: the immediate or the index register. -/
def Machine.rhs (m : Machine) (i : Instruction) : BitVec 32 :=
  if i.code.toNat &&& 8 = 0 then i.k else m.x

/-- The accumulator is assigned, or the run ends with 0. -/
def Machine.assign (m : Machine) : Option (BitVec 32) → Progress
  | some value => .next { m with a := value }
  | none => .done 0

/-- A load from the metadata.  A missing device ends the run with the accumulator. -/
def Machine.loadAncillary (m : Machine) (packet : Packet) (k : BitVec 32) : Progress :=
  let field := k - AD_OFF
  if field = 40 then .next { m with a := m.a ^^^ m.x }
  else
    match packet.ancillary field m.a m.x with
    | some value => .next { m with a := value }
    | none => .done (if field = 8 ∨ field = 28 then m.a else 0)

/-- A load from the packet. -/
def Machine.loadPacket (m : Machine) (packet : Packet) (i : Instruction) : Progress :=
  let size :=
    match i.code.toNat &&& 0x18 with
    | 0 => 4
    | 8 => 2
    | _ => 1
  let offset := if i.code.toNat &&& 0xe0 = 0x40 then i.k + m.x else i.k
  m.assign (packet.load offset size)

/-- One instruction, the program counter being past it. -/
def Machine.execute (m : Machine) (packet : Packet) (i : Instruction) : Except Fault Progress :=
  match i.code.toNat with
  | 0x00 => .ok (.next { m with a := i.k })
  | 0x01 => .ok (.next { m with x := i.k })
  | 0x80 => .ok (.next { m with a := packet.len })
  | 0x81 => .ok (.next { m with x := packet.len })
  | 0x60 => (m.memory.read i.k).map fun value => .next { m with a := value }
  | 0x61 => (m.memory.read i.k).map fun value => .next { m with x := value }
  | 0x02 => (m.memory.write i.k m.a).map fun memory => .next { m with memory }
  | 0x03 => (m.memory.write i.k m.x).map fun memory => .next { m with memory }
  | 0x07 => .ok (.next { m with x := m.a })
  | 0x87 => .ok (.next { m with a := m.x })
  | 0x06 => .ok (.done i.k)
  | 0x16 => .ok (.done m.a)
  | code =>
    if i.among absoluteLoads && AD_OFF ≤ i.k then .ok (m.loadAncillary packet i.k)
    else if i.among absoluteLoads || i.among indirectLoads then .ok (m.loadPacket packet i)
    else if code = 0xb1 then
      match packet.load i.k 1 with
      | some value => .ok (.next { m with x := (value &&& 15) * 4 })
      | none => .ok (.done 0)
    else if code = 0x05 then .ok (.next { m with pc := m.pc + i.k.toNat })
    else if code &&& 7 = 5 then
      (taken code m.a (m.rhs i)).map fun take =>
        .next { m with pc := m.pc + (if take then i.jt else i.jf).toNat }
    else
      (alu code m.a (m.rhs i)).map m.assign

/-- One turn of the loop. -/
def step (code : List Instruction) (packet : Packet) (m : Machine) : Except Fault Progress :=
  match code[m.pc]? with
  | none => .error .index
  | some i => Machine.execute { m with pc := m.pc + 1 } packet i

/-- The loop, for at most `fuel` instructions; `none` when more are needed. -/
def runFrom (code : List Instruction) (packet : Packet) :
    Nat → Machine → Option (Except Fault (BitVec 32))
  | 0, _ => none
  | fuel + 1, m =>
    match step code packet m with
    | .error fault => some (.error fault)
    | .ok (.done value) => some (.ok value)
    | .ok (.next m) => runFrom code packet fuel m

/-- The machine before the first instruction. -/
def Machine.start (memory : Memory) : Machine := ⟨0, 0, memory, 0⟩

/-- `Program::run`, for at most `fuel` instructions and from any scratch words. -/
def Program.runWith (memory : Memory) (code : List Instruction) (packet : Packet) (fuel : Nat) :
    Option (Except Fault (BitVec 32)) :=
  runFrom code packet fuel (.start memory)

def Program.run (code : List Instruction) (packet : Packet) (fuel : Nat) :
    Option (Except Fault (BitVec 32)) :=
  runWith (.replicate 16 0) code packet fuel

/-! ## Bytes -/

def Instruction.encode (i : Instruction) : List (BitVec 8) :=
  leBytes 2 i.code.toNat ++ [i.jt, i.jf] ++ leBytes 4 i.k.toNat

/-- An instruction from its eight bytes. -/
def Instruction.decode (bytes : List (BitVec 8)) : Instruction where
  code := .ofNat 16 (ofLe (bytes.take 2))
  jt := bytes.getD 2 0
  jf := bytes.getD 3 0
  k := .ofNat 32 (ofLe ((bytes.drop 4).take 4))

def Program.decode (bytes : List (BitVec 8)) : Except Int (List Instruction) :=
  if bytes.length % 8 ≠ 0 then .error EINVAL
  else Program.new ((chunksExact 8 bytes).map Instruction.decode)

def Program.encode (code : List Instruction) : List (BitVec 8) := code.flatMap Instruction.encode

end Kinakaze.Classic
