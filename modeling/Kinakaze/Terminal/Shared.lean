import Kinakaze.Terminal.Ldisc

/-!
# The terminal in shared memory

A pseudo-terminal is shared by processes that do not share a heap, so its
discipline lives in a block of fixed size: each operation loads it, runs on the
loaded form, stores it back and signals readiness from the block's own fields.
-/

namespace Kinakaze.Terminal

/-- The state of one pseudo-terminal as it lives in shared memory: the fields
the discipline travels in and those readiness is derived from. -/
structure Shared where
  flags : Flags
  packetStatus : BitVec 32
  ldiscNumber : Int
  column : BitVec 32
  canonColumn : BitVec 32
  pending : BitVec 32
  lineCount : BitVec 32
  inputLen : BitVec 32
  outputLen : BitVec 32
  stopped : Bool
  throttled : Bool
  literal : Bool
  erasePrinting : Bool
  termios : Termios
  lines : List (BitVec 16)
  input : List Byte
  output : List Byte
  lines_length : lines.length = INPUT_LIMIT
  input_length : input.length = INPUT_LIMIT
  output_length : output.length = OUTPUT_LIMIT

def FLAG_LOCKED : Flags := 1 <<< 0
def FLAG_HUNGUP : Flags := 1 <<< 3
def FLAG_MASTER_SEEN : Flags := 1 <<< 4
def FLAG_SLAVE_SEEN : Flags := 1 <<< 5

/-- A freshly created terminal: a zeroed block with the default settings. -/
def Shared.fresh : Shared where
  flags := FLAG_LOCKED
  packetStatus := 0
  ldiscNumber := N_TTY
  column := 0
  canonColumn := 0
  pending := 0
  lineCount := 0
  inputLen := 0
  outputLen := 0
  stopped := false
  throttled := false
  literal := false
  erasePrinting := false
  termios := defaultTermios
  lines := List.replicate INPUT_LIMIT 0
  input := List.replicate INPUT_LIMIT 0
  output := List.replicate OUTPUT_LIMIT 0
  lines_length := List.length_replicate
  input_length := List.length_replicate
  output_length := List.length_replicate

/-! ## Moving the discipline -/

/-- Loads the terminal's discipline out of shared memory. -/
def loadLdisc (shared : Shared) : Ldisc :=
  let inputLen := min shared.inputLen.toNat INPUT_LIMIT
  let lineCount := min shared.lineCount.toNat INPUT_LIMIT
  let outputLen := min shared.outputLen.toNat OUTPUT_LIMIT
  { termios := shared.termios
    input := shared.input.take inputLen
    pending := min shared.pending.toNat inputLen
    lines := (shared.lines.take lineCount).map BitVec.toNat
    output := shared.output.take outputLen
    column := shared.column.toNat
    canonColumn := shared.canonColumn.toNat
    stopped := shared.stopped
    throttled := shared.throttled
    literal := shared.literal
    erasePrinting := shared.erasePrinting
    number := shared.ldiscNumber }

/-- `array[..new.len()].copy_from_slice(new)`. -/
def overwrite {α : Type} (array new : List α) : List α := new ++ array.drop new.length

theorem length_overwrite {α : Type} {array new : List α} {n : Nat} (h : array.length = n)
    (hle : new.length ≤ n) : (overwrite array new).length = n := by
  simp only [overwrite, List.length_append, List.length_drop]
  omega

/-- Stores a discipline back into shared memory. -/
def storeLdisc (shared : Shared) (d : Ldisc) : Shared :=
  let inputLen := min d.input.length INPUT_LIMIT
  let lineCount := min d.lines.length INPUT_LIMIT
  let outputLen := min d.output.length OUTPUT_LIMIT
  { shared with
    input := overwrite shared.input (d.input.take inputLen)
    inputLen := BitVec.ofNat 32 inputLen
    pending := BitVec.ofNat 32 (min d.pending inputLen)
    lines := overwrite shared.lines ((d.lines.take lineCount).map (BitVec.ofNat 16))
    lineCount := BitVec.ofNat 32 lineCount
    output := overwrite shared.output (d.output.take outputLen)
    outputLen := BitVec.ofNat 32 outputLen
    termios := d.termios
    column := BitVec.ofNat 32 d.column
    canonColumn := BitVec.ofNat 32 d.canonColumn
    stopped := d.stopped
    throttled := d.throttled
    literal := d.literal
    erasePrinting := d.erasePrinting
    ldiscNumber := d.number
    lines_length := by
      refine length_overwrite shared.lines_length ?_
      rw [List.length_map, List.length_take]
      omega
    input_length := by
      refine length_overwrite shared.input_length ?_
      rw [List.length_take]
      omega
    output_length := by
      refine length_overwrite shared.output_length ?_
      rw [List.length_take]
      omega }

/-- One operation on the shared terminal, under its lock. -/
def Shared.operate (shared : Shared) (operation : Operation) : Option (Shared × Answer) :=
  ((loadLdisc shared).perform operation).map fun (d, answer) => (storeLdisc shared d, answer)

/-! ## Readiness -/

def Shared.hangupPending (shared : Shared) : Bool := shared.flags.any FLAG_HUNGUP

/-- The two readiness events after an operation. -/
structure Published where
  shared : Shared
  slaveReady : Bool
  masterReady : Bool

/-- Signals or clears the two readiness events to match the current state, given
which sides still hold a descriptor. -/
def publish (shared : Shared) (masterAlive slaveAlive : Bool) : Published :=
  let shared := if shared.flags.any FLAG_MASTER_SEEN && !masterAlive then
    { shared with flags := shared.flags ||| FLAG_HUNGUP } else shared
  { shared
    slaveReady := shared.hangupPending ||
      if shared.termios.lflag.any ICANON then 0 < shared.lineCount.toNat
      else 0 < shared.inputLen.toNat
    masterReady := 0 < shared.outputLen.toNat || shared.packetStatus != 0 ||
      shared.flags.any FLAG_SLAVE_SEEN && !slaveAlive }

theorem readReady_iff (d : Ldisc) (size : Nat) :
    d.readReady = true ↔ (d.read size).1 ≠ .wouldBlock := by
  unfold Ldisc.readReady Ldisc.read
  by_cases hcanonical : d.canonical = true
  · simp only [hcanonical, if_true]
    cases hlines : d.lines with
    | nil => simp
    | cons line rest =>
      by_cases hline : line = 0 <;> simp [hline]
  · simp only [hcanonical, if_false]
    cases hinput : d.input with
    | nil | cons => simp

theorem isEmpty_take {α : Type} {xs : List α} {n limit : Nat} (h : xs.length = limit)
    (hlimit : 0 < limit) : (!(xs.take (min n limit)).isEmpty) = decide (0 < n) := by
  cases n with
  | zero => simp
  | succ n =>
    have hlength : 0 < (xs.take (min (n + 1) limit)).length := by
      rw [List.length_take]
      omega
    have hne := List.length_pos_iff.mp hlength
    simpa using hne

theorem loadLdisc_readReady (shared : Shared) : (loadLdisc shared).readReady =
      if shared.ldiscNumber = N_TTY ∧ shared.termios.lflag.any ICANON then
        decide (0 < shared.lineCount.toNat)
      else decide (0 < shared.inputLen.toNat) := by
  have hlines := isEmpty_take (n := shared.lineCount.toNat) shared.lines_length
    (by decide : 0 < INPUT_LIMIT)
  have hinput := isEmpty_take (n := shared.inputLen.toNat) shared.input_length
    (by decide : 0 < INPUT_LIMIT)
  unfold Ldisc.readReady Ldisc.canonical loadLdisc
  simp only [Bool.and_eq_true, beq_iff_eq, List.isEmpty_map]
  split_ifs
  · exact hlines
  · exact hinput

/-- The slave readiness signalled for a terminal is hangup or the loaded
discipline's own readiness exactly when the discipline is `N_TTY`, the settings
are not canonical, the terminal has hung up, or complete lines and queued bytes
are both present or both absent. -/
theorem slaveReady_iff (shared : Shared) (masterAlive slaveAlive : Bool) :
    let published := publish shared masterAlive slaveAlive
    let d := loadLdisc published.shared
    (published.slaveReady = (published.shared.hangupPending || d.readReady) ↔
      published.shared.hangupPending = true ∨ d.number = N_TTY ∨
        d.termios.lflag.any ICANON = false ∨
        (0 < published.shared.lineCount.toNat ↔ 0 < published.shared.inputLen.toNat)) ∧
      ∀ size, d.readReady = true ↔ (d.read size).1 ≠ .wouldBlock := by
  intro published d
  refine ⟨?_, readReady_iff d⟩
  have hready : published.slaveReady = (published.shared.hangupPending ||
      if published.shared.termios.lflag.any ICANON then
        decide (0 < published.shared.lineCount.toNat)
      else decide (0 < published.shared.inputLen.toNat)) := rfl
  have hnumber : d.number = published.shared.ldiscNumber := rfl
  have htermios : d.termios = published.shared.termios := rfl
  rw [hready, loadLdisc_readReady, hnumber, htermios]
  cases published.shared.hangupPending with
  | true => simp
  | false =>
    by_cases hcanonical : published.shared.termios.lflag.any ICANON = true
    · by_cases htty : published.shared.ldiscNumber = N_TTY <;> simp [hcanonical, htty]
    · simp [hcanonical]

/-- A terminal whose number was set to another discipline and that then received
a byte: the byte can be read, and the readiness event is not signalled. -/
def mislabelled : Option Published := do
  let (shared, _) ← Shared.fresh.operate (.setNumber 27)
  let (shared, _) ← shared.operate (.receive [0x61])
  return publish shared true true

theorem mislabelled_sleeps : ∃ published, mislabelled = some published ∧
    published.slaveReady ≠ (published.shared.hangupPending ||
      (loadLdisc published.shared).readReady) ∧
    ((loadLdisc published.shared).read 1).1 = .data [0x61] := by
  refine ⟨_, rfl, ?_, ?_⟩ <;> decide

end Kinakaze.Terminal
