import Mathlib.Algebra.Ring.Int.Defs
import Mathlib.Algebra.Ring.Nat
import Mathlib.Tactic.Common

/-!
# The line discipline: settings, queues and output

One terminal's state is a `Ldisc`: the settings in force, the queue of input
bytes with the lengths of its complete lines, and the queue of output bytes
with the cursor column.  This module has the settings, the mode switches and
everything that writes to the output queue.
-/

namespace Kinakaze.Terminal

abbrev Byte := BitVec 8
abbrev Flags := BitVec 32

/-! ## Settings -/

def ISIG : Flags := 0x00000001
def ICANON : Flags := 0x00000002
def ECHO : Flags := 0x00000008
def ECHOE : Flags := 0x00000010
def ECHOK : Flags := 0x00000020
def ECHONL : Flags := 0x00000040
def NOFLSH : Flags := 0x00000080
def ECHOCTL : Flags := 0x00000200
def ECHOPRT : Flags := 0x00000400
def ECHOKE : Flags := 0x00000800
def IEXTEN : Flags := 0x00008000

def IGNBRK : Flags := 0x00000001
def BRKINT : Flags := 0x00000002
def ISTRIP : Flags := 0x00000020
def INLCR : Flags := 0x00000040
def IGNCR : Flags := 0x00000080
def ICRNL : Flags := 0x00000100
def IXON : Flags := 0x00000400
def IXANY : Flags := 0x00000800
def IXOFF : Flags := 0x00001000
def IMAXBEL : Flags := 0x00002000
def IUTF8 : Flags := 0x00004000

def OPOST : Flags := 0x00000001
def ONLCR : Flags := 0x00000004
def OCRNL : Flags := 0x00000008
def ONOCR : Flags := 0x00000010
def ONLRET : Flags := 0x00000020
def TABDLY : Flags := 0x00001800
def XTABS : Flags := 0x00001800

def CS8 : Flags := 0x00000030
def CREAD : Flags := 0x00000080
def HUPCL : Flags := 0x00000400
def CLOCAL : Flags := 0x00000800
def B38400 : Flags := 0x0000000f

def VINTR : Fin 32 := 0
def VQUIT : Fin 32 := 1
def VERASE : Fin 32 := 2
def VKILL : Fin 32 := 3
def VEOF : Fin 32 := 4
def VTIME : Fin 32 := 5
def VMIN : Fin 32 := 6
def VSTART : Fin 32 := 8
def VSTOP : Fin 32 := 9
def VSUSP : Fin 32 := 10
def VEOL : Fin 32 := 11
def VREPRINT : Fin 32 := 12
def VDISCARD : Fin 32 := 13
def VWERASE : Fin 32 := 14
def VLNEXT : Fin 32 := 15
def VEOL2 : Fin 32 := 16

def SIGINT : Int := 2
def SIGQUIT : Int := 3
def SIGTSTP : Int := 20

structure Termios where
  iflag : Flags
  oflag : Flags
  cflag : Flags
  lflag : Flags
  line : Byte
  cc : Vector Byte 32
  ispeed : Flags
  ospeed : Flags
  deriving DecidableEq

/-- `flags & mask != 0`. -/
def Flags.any (flags mask : Flags) : Bool := flags &&& mask != 0

/-- The settings a pseudo-terminal is created with. -/
def defaultTermios : Termios where
  iflag := ICRNL ||| IXON ||| BRKINT ||| IMAXBEL
  oflag := OPOST ||| ONLCR
  cflag := CS8 ||| CREAD ||| CLOCAL ||| HUPCL
  lflag := ISIG ||| ICANON ||| ECHO ||| ECHOE ||| ECHOK ||| IEXTEN ||| ECHOCTL ||| ECHOKE
  line := 0
  cc := (Vector.replicate 32 0)
    |>.set VINTR 0x03 |>.set VQUIT 0x1c |>.set VERASE 0x7f |>.set VKILL 0x15 |>.set VEOF 0x04
    |>.set VSTART 0x11 |>.set VSTOP 0x13 |>.set VSUSP 0x1a |>.set VMIN 1 |>.set VTIME 0
    |>.set VREPRINT 0x12 |>.set VDISCARD 0x0f |>.set VWERASE 0x17 |>.set VLNEXT 0x16
  ispeed := B38400
  ospeed := B38400

def INPUT_LIMIT : Nat := 4096
def OUTPUT_LIMIT : Nat := 16384
def DISABLED : Byte := 0
def IXOFF_HIGH_WATER : Nat := INPUT_LIMIT * 2 / 3
def IXOFF_LOW_WATER : Nat := INPUT_LIMIT / 3
def TAB_WIDTH : Nat := 8
def N_TTY : Int := 0

/-- Whether `byte` is the control character in slot `slot`. -/
def Termios.matches (termios : Termios) (slot : Fin 32) (byte : Byte) : Bool :=
  termios.cc[slot] != DISABLED && byte == termios.cc[slot]

/-! ## State -/

/-- One terminal's line discipline state. -/
structure Ldisc where
  termios : Termios
  /-- Committed bytes first, then the line still being edited. -/
  input : List Byte
  /-- How many bytes at the tail of `input` belong to the uncommitted line. -/
  pending : Nat
  /-- Byte counts of the complete lines, in order. -/
  lines : List Nat
  output : List Byte
  column : Nat
  canonColumn : Nat
  stopped : Bool
  throttled : Bool
  literal : Bool
  erasePrinting : Bool
  number : Int
  deriving DecidableEq

def Ldisc.new (termios : Termios) : Ldisc where
  termios
  input := []
  pending := 0
  lines := []
  output := []
  column := 0
  canonColumn := 0
  stopped := false
  throttled := false
  literal := false
  erasePrinting := false
  number := N_TTY

namespace Ldisc

variable (d : Ldisc)

def canonical : Bool := d.number == N_TTY && d.termios.lflag.any ICANON

/-- Reconciles buffered input after a change from mode `was` to the mode now in
force. -/
def reconcile (was : Bool) : Ldisc :=
  if was && !d.canonical then { d with pending := 0 }
  else if !was && d.canonical then
    { d with pending := d.input.length, canonColumn := d.column }
  else d

/-- Installs new settings, reconciling any line that was being edited. -/
def retune (termios : Termios) : Ldisc :=
  let d' := { d with termios }.reconcile d.canonical
  if termios.iflag.any IXON then d' else { d' with stopped := false }

/-- Changes the active line discipline number, reconciling buffered input. -/
def setNumber (number : Int) : Ldisc := { d with number }.reconcile d.canonical

def setOutputStopped (stopped : Bool) : Ldisc := { d with stopped }

def readReady : Bool :=
  if d.canonical then !d.lines.isEmpty else !d.input.isEmpty

/-! ## Output -/

def outputSpace : Nat := OUTPUT_LIMIT - d.output.length

/-- Advances the column for a byte emitted without translation. -/
def trackColumn (byte : Byte) : Ldisc :=
  if byte = 0x0a ∨ byte = 0x0d then { d with column := 0 }
  else if byte = 0x08 then { d with column := d.column - 1 }
  else if byte = 0x09 then { d with column := d.column + (TAB_WIDTH - d.column % TAB_WIDTH) }
  else if d.termios.iflag.any IUTF8 ∧ byte &&& 0xc0 = 0x80 then d
  else if byte ≥ 0x20 ∧ byte ≠ 0x7f then { d with column := d.column + 1 }
  else d

/-- Appends bytes to the output queue; the caller has made sure they fit. -/
def emit (bytes : List Byte) : Ldisc := { d with output := d.output ++ bytes }

/-- `OPOST` for a newline. -/
def outputNewline : Bool × Ldisc :=
  let oflag := d.termios.oflag
  -- ONLRET moves the column even when the newline itself finds no room.
  let d := if oflag.any ONLRET then { d with column := 0 } else d
  if oflag.any ONLCR then
    if d.outputSpace < 2 then (false, d)
    else (true, { d with column := 0, canonColumn := 0 }.emit [0x0d, 0x0a])
  else if d.outputSpace < 1 then (false, d)
  else (true, { d with canonColumn := d.column }.emit [0x0a])

/-- `OPOST` for a carriage return. -/
def outputReturn : Bool × Ldisc :=
  let oflag := d.termios.oflag
  if oflag.any ONOCR ∧ d.column = 0 then (true, d)
  else if d.outputSpace < 1 then (false, d)
  else if oflag.any OCRNL then
    let d := if oflag.any ONLRET then { d with column := 0, canonColumn := 0 } else d
    (true, d.emit [0x0a])
  else (true, { d with column := 0, canonColumn := 0 }.emit [0x0d])

/-- `OPOST` for a tab. -/
def outputTab : Bool × Ldisc :=
  let spaces := TAB_WIDTH - d.column % TAB_WIDTH
  if d.termios.oflag &&& TABDLY = XTABS then
    if d.outputSpace < spaces then (false, d)
    else (true, { d with column := d.column + spaces }.emit (List.replicate spaces 0x20))
  else if d.outputSpace < 1 then (false, d)
  else (true, { d with column := d.column + spaces }.emit [0x09])

/-- Applies `OPOST` to one byte; false when the queue had no room. -/
def outputChar (byte : Byte) : Bool × Ldisc :=
  if byte = 0x0a then d.outputNewline
  else if byte = 0x0d then d.outputReturn
  else if byte = 0x09 then d.outputTab
  else if d.outputSpace < 1 then (false, d)
  else (true, (d.trackColumn byte).emit [byte])

/-- The source bytes written until the queue has no room for one. -/
def outputChars : List Byte → Ldisc → Nat × Ldisc
  | [], d => (0, d)
  | byte :: rest, d =>
    match d.outputChar byte with
    | (false, d) => (0, d)
    | (true, d) =>
      let (consumed, d) := outputChars rest d
      (consumed + 1, d)

/-- Writes bytes toward the other end, applying `OPOST` when it is set. -/
def writeOutput (bytes : List Byte) : Nat × Ldisc :=
  if d.number ≠ N_TTY ∨ d.termios.oflag.any OPOST = false then
    let count := min bytes.length d.outputSpace
    (count, (bytes.take count).foldl (fun d byte => (d.trackColumn byte).emit [byte]) d)
  else outputChars bytes d

/-- Places one byte on the output queue through `OPOST`. -/
def echoRaw (byte : Byte) : Ldisc :=
  if d.termios.oflag.any OPOST then (d.outputChar byte).2
  else if d.outputSpace = 0 then d
  else (d.trackColumn byte).emit [byte]

/-- Echoes one input byte, rendering control characters under `ECHOCTL`. -/
def echoChar (byte : Byte) : Ldisc :=
  let control : Bool := byte < 0x20 || byte = 0x7f
  if d.termios.lflag.any ECHOCTL ∧ control ∧ byte ≠ 0x09 ∧ byte ≠ 0x0a then
    (d.echoRaw 0x5e).echoRaw (byte ^^^ 0x40)
  else d.echoRaw byte

/-- Places one byte on the output queue with no processing at all. -/
def emitRaw (byte : Byte) : Ldisc :=
  if d.outputSpace = 0 then d else d.emit [byte]

/-- Copies out post-processed output for the other end of the terminal. -/
def readOutput (size : Nat) : List Byte × Ldisc :=
  (d.output.take size, { d with output := d.output.drop size })

/-- Closes an `ECHOPRT` erase sequence with its trailing slash. -/
def finishErasePrinting : Ldisc :=
  if d.erasePrinting then { d with erasePrinting := false }.echoRaw 0x2f else d

/-! ## Flow control -/

/-- Sends `VSTOP` upstream once the queue is too full to keep accepting. -/
def applyThrottle : Ldisc :=
  if d.termios.iflag.any IXOFF = false ∨ d.throttled then d
  else if d.input.length ≥ IXOFF_HIGH_WATER ∧ d.termios.cc[VSTOP] ≠ DISABLED then
    { d.emitRaw d.termios.cc[VSTOP] with throttled := true }
  else d

/-- Releases an `IXOFF` throttle once the reader has drained enough. -/
def releaseThrottle : Ldisc :=
  if d.throttled = false then d
  else if d.input.length ≤ IXOFF_LOW_WATER then
    let d := if d.termios.cc[VSTART] ≠ DISABLED then d.emitRaw d.termios.cc[VSTART] else d
    { d with throttled := false }
  else d

end Ldisc

end Kinakaze.Terminal

/-!
## The line discipline: input

Bytes from the wire are edited, committed as lines and read back.  Erasing
characters can fail to end: with the output queue full the cursor cannot be
backed up, so the loops that erase return `none` for a call that never returns.
-/

namespace Kinakaze.Terminal

/-- Which queues a flush affects. -/
inductive Queue where
  | input
  | output
  | both
  deriving DecidableEq

/-- The result of a read attempt; `data` carries the bytes copied out. -/
inductive Read where
  | data (bytes : List Byte)
  | endOfFile
  | wouldBlock
  deriving DecidableEq

/-- Which editing operation an erase character requested. -/
inductive Erase where
  | character
  | word
  | line
  deriving DecidableEq

namespace Ldisc

variable (d : Ldisc)

/-! ## Reading -/

/-- Moves `count` bytes off the front of the input queue, NUL where it is short. -/
def drained (count : Nat) : List Byte :=
  d.input.take count ++ List.replicate (count - d.input.length) 0

/-- Copies out at most one line, or as much raw input as fits. -/
def read (size : Nat) : Read × Ldisc :=
  if d.canonical then
    match d.lines with
    | [] => (.wouldBlock, d)
    | line :: rest =>
      if line = 0 then (.endOfFile, { d with lines := rest })
      else
        let count := min line size
        let lines := if line > count then (line - count) :: rest else rest
        (.data (d.drained count), { d with input := d.input.drop count, lines }.releaseThrottle)
  else if d.input.isEmpty then (.wouldBlock, d)
  else
    let count := min d.input.length size
    (.data (d.drained count), { d with input := d.input.drop count }.releaseThrottle)

/-- Discards queued bytes, as `tcflush` requests. -/
def flush (queue : Queue) : Ldisc :=
  let d := if queue = .input ∨ queue = .both then
    { d with input := [], lines := [], pending := 0, literal := false }.releaseThrottle else d
  if queue = .output ∨ queue = .both then { d with output := [] } else d

/-! ## The line under edit -/

/-- Byte at `index` within the line under edit.  The subtraction of the source
wraps, so a line longer than the queue finds NULs before the queue's start. -/
def pendingByte (index : Nat) : Byte :=
  if d.pending ≤ d.input.length + index then
    d.input.getD (d.input.length + index - d.pending) 0
  else 0

/-- Appends one byte to the input queue, echoing it if echo is on. -/
def store (byte : Byte) : Ldisc :=
  if d.input.length ≥ INPUT_LIMIT then d
  else
    let d := if d.canonical ∧ d.pending = 0 then { d with canonColumn := d.column } else d
    let d := if d.termios.lflag.any ECHO then d.echoChar byte else d
    let d := { d with input := d.input ++ [byte] }
    if d.canonical then { d with pending := d.pending + 1 } else d

/-- Completes the line under edit, optionally storing a terminator. -/
def commit (terminator : Option Byte) : Ldisc :=
  let d := match terminator with
    | some byte =>
      if d.input.length < INPUT_LIMIT then
        { d with input := d.input ++ [byte], pending := d.pending + 1 }
      else d
    | none => d
  { d with lines := d.lines ++ [d.pending], pending := 0, canonColumn := d.column }

/-- Drops `count` bytes from the end of the line under edit. -/
def discardPending (count : Nat) : Ldisc :=
  let dropped := min count d.pending
  { d with
    input := d.input.take (d.input.length - dropped)
    pending := d.pending - dropped }

/-! ## Erasing -/

/-- The bytes of the last character, counted from `count` on. -/
def widthFrom : Nat → Nat → Nat
  | 0, count => count
  | fuel + 1, count =>
    if count < d.pending then
      if d.pendingByte (d.pending - count) &&& 0xc0 ≠ 0x80 then count
      else widthFrom fuel (count + 1)
    else count

/-- How many bytes the last character of the pending line occupies. -/
def characterWidthBytes : Nat :=
  if d.termios.iflag.any IUTF8 = false ∨ d.pending = 0 then 1 else d.widthFrom d.pending 1

def replayByte (column : Nat) (byte : Byte) : Nat :=
  if byte = 0x09 then column + (TAB_WIDTH - column % TAB_WIDTH)
  else if byte = 0x08 then column - 1
  else if byte < 0x20 ∨ byte = 0x7f then
    if d.termios.lflag.any ECHOCTL then column + 2 else column
  else if d.termios.iflag.any IUTF8 ∧ byte &&& 0xc0 = 0x80 then column
  else column + 1

/-- The column the cursor would be in after echoing `count` bytes of the line. -/
def replayColumn (count : Nat) : Nat :=
  (List.range count).foldl (fun column index => d.replayByte column (d.pendingByte index))
    d.canonColumn

/-- Backs the cursor up to `target`.  A turn that leaves the column where it was
has filled the queue, and the loop never ends; `none` is that call. -/
def eraseToColumn (target : Nat) (wasTab : Bool) : Nat → Ldisc → Option Ldisc
  | fuel, d =>
    if d.column > target then
      match fuel with
      | 0 => none
      | fuel + 1 =>
        eraseToColumn target wasTab fuel <|
          if wasTab then d.echoRaw 0x08
          else ((d.echoRaw 0x08).echoRaw 0x20).echoRaw 0x08
    else some d

/-- A turn that can still write moves the column back, so a loop that ends has
ended after as many turns as there are columns to back over. -/
def backUp (target : Nat) (wasTab : Bool) : Option Ldisc :=
  eraseToColumn target wasTab (d.column - target) d

def wordByte (byte : Byte) : Bool :=
  (0x30 ≤ byte && byte ≤ 0x39) || (0x41 ≤ byte && byte ≤ 0x5a) || (0x61 ≤ byte && byte ≤ 0x7a) ||
    byte == 0x5f

/-- Un-draws one erased character. -/
def eraseEcho (kind : Erase) (byte : Byte) (targetColumn : Nat) : Option Ldisc :=
  if d.termios.lflag.any ECHO = false then some d
  else if d.termios.lflag.any ECHOPRT then
    let d := if d.erasePrinting then d else { d.echoRaw 0x5c with erasePrinting := true }
    some (d.echoChar byte)
  else if kind = .character ∧ d.termios.lflag.any ECHOE = false then
    some (d.echoChar d.termios.cc[VERASE])
  else d.backUp targetColumn (byte == 0x09)

/-- The loop over the characters to erase; each turn shortens the line. -/
def eraseLoop (kind : Erase) : Nat → Bool → Ldisc → Option Ldisc
  | 0, _, d => some d
  | fuel + 1, seenWord, d =>
    if d.pending = 0 then some d
    else
      let count := d.characterWidthBytes
      let byte := d.pendingByte (d.pending - count)
      if kind = .word ∧ wordByte byte = false ∧ seenWord then some d
      else
        let seenWord := seenWord || (decide (kind = .word) && wordByte byte)
        let targetColumn := d.replayColumn (d.pending - count)
        match (d.discardPending count).eraseEcho kind byte targetColumn with
        | none => none
        | some d => if kind = .character then some d else eraseLoop kind fuel seenWord d

/-- Removes characters from the line under edit and un-draws them. -/
def erase (kind : Erase) : Option Ldisc :=
  let lflag := d.termios.lflag
  if d.pending = 0 then some d
  else if kind = .line ∧ lflag.any ECHO = false then some (d.discardPending d.pending)
  else if kind = .line ∧ lflag &&& (ECHOKE ||| ECHOE ||| ECHOK) ≠ ECHOKE ||| ECHOE ||| ECHOK then
    let d := (d.discardPending d.pending).finishErasePrinting.echoChar d.termios.cc[VKILL]
    some (if lflag.any ECHOK then d.echoRaw 0x0a else d)
  else
    (eraseLoop kind d.pending false d).map fun d =>
      if d.pending = 0 ∧ lflag.any ECHO then d.finishErasePrinting else d

/-- Re-echoes the line under edit on a fresh line, as `VREPRINT` asks. -/
def reprint : Ldisc :=
  let d := (d.finishErasePrinting.echoChar d.termios.cc[VREPRINT]).echoRaw 0x0a
  let d := { d with canonColumn := d.column }
  ((List.range d.pending).map d.pendingByte).foldl echoChar d

/-! ## Receiving -/

/-- Generates a signal from a control character. -/
def signalChar (byte : Byte) : Ldisc :=
  let d := if d.termios.lflag.any NOFLSH then d else d.flush .both
  let d := { d with stopped := false }
  if d.termios.lflag.any ECHO then d.echoChar byte else d

/-- Canonical-mode handling for one byte: editing, terminators, echo. -/
def receiveCanonical (byte : Byte) : Option Ldisc :=
  let lflag := d.termios.lflag
  let iexten := lflag.any IEXTEN
  if d.termios.matches VERASE byte then d.erase .character
  else if d.termios.matches VKILL byte then d.erase .line
  else if iexten ∧ d.termios.matches VWERASE byte then d.erase .word
  else if iexten ∧ d.termios.matches VLNEXT byte then
    let d := { d with literal := true }
    some (if lflag.any ECHO then (d.finishErasePrinting.echoRaw 0x5e).echoRaw 0x08 else d)
  else if iexten ∧ lflag.any ECHO ∧ d.termios.matches VREPRINT byte then some d.reprint
  else if byte = 0x0a then
    let d := d.finishErasePrinting
    let d := if lflag.any (ECHO ||| ECHONL) then d.echoRaw 0x0a else d
    some (d.commit (some byte))
  else if d.termios.matches VEOF byte then some (d.finishErasePrinting.commit none)
  else if d.termios.matches VEOL byte ∨ iexten ∧ d.termios.matches VEOL2 byte then
    let d := d.finishErasePrinting
    let d := if lflag.any ECHO then d.echoChar byte else d
    some (d.commit (some byte))
  else some (d.finishErasePrinting.store byte)

/-- `ISTRIP` and the CR/NL translations; `none` is a carriage return ignored. -/
def translate (byte : Byte) : Option Byte :=
  let iflag := d.termios.iflag
  let byte := if iflag.any ISTRIP then byte &&& 0x7f else byte
  if byte = 0x0d then
    if iflag.any IGNCR then none
    else if iflag.any ICRNL then some 0x0a
    else some byte
  else if byte = 0x0a ∧ iflag.any INLCR then some 0x0d
  else some byte

/-- The signal a control character stands for. -/
def signalOf (byte : Byte) : Option Int :=
  if d.termios.matches VINTR byte then some SIGINT
  else if d.termios.matches VQUIT byte then some SIGQUIT
  else if d.termios.matches VSUSP byte then some SIGTSTP
  else none

/-- What follows flow control: signals, then the byte itself. -/
def receiveText (byte : Byte) : Option (Ldisc × List Int) :=
  match if d.termios.lflag.any ISIG then d.signalOf byte else none with
  | some signal => some (d.signalChar byte, [signal])
  | none =>
    if d.termios.lflag.any ICANON then (d.receiveCanonical byte).map fun d => (d, [])
    else some (d.store byte, [])

/-- One byte from the wire, with the signals it generated. -/
def receiveByte (byte : Byte) : Option (Ldisc × List Int) :=
  if d.literal then some ({ d with literal := false }.store byte, [])
  else
    match d.translate byte with
    | none => some (d, [])
    | some byte =>
      let iflag := d.termios.iflag
      let start := d.termios.cc[VSTART]
      let stop := d.termios.cc[VSTOP]
      if iflag.any IXON ∧ d.termios.matches VSTOP byte then
        some ({ d with stopped := !(start == stop && d.stopped) }, [])
      else if iflag.any IXON ∧ d.termios.matches VSTART byte then
        some ({ d with stopped := false }, [])
      else
        let d := if d.stopped ∧ iflag &&& (IXON ||| IXANY) = IXON ||| IXANY then
          { d with stopped := false } else d
        d.receiveText byte

/-- The bytes one after the other. -/
def receiveBytes : List Byte → Ldisc → Option (Ldisc × List Int)
  | [], d => some (d, [])
  | byte :: rest, d =>
    match d.receiveByte byte with
    | none => none
    | some (d, signals) =>
      (receiveBytes rest d).map fun (d, later) => (d, signals ++ later)

/-- A discipline other than `N_TTY` queues the bytes as they are. -/
def receiveRaw (bytes : List Byte) : Ldisc :=
  bytes.foldl (fun d byte =>
    if d.input.length < INPUT_LIMIT then { d with input := d.input ++ [byte] } else d) d

/-- Feeds bytes in from the wire, returning the signals they generated. -/
def receive (bytes : List Byte) : Option (Ldisc × List Int) :=
  if d.number ≠ N_TTY then some (d.receiveRaw bytes, [])
  else (receiveBytes bytes d).map fun (d, signals) => (d.applyThrottle, signals)

/-- Handles a break condition on the line. -/
def receiveBreak : Option (Ldisc × List Int) :=
  if d.termios.iflag.any IGNBRK then some (d, [])
  else if d.termios.iflag.any BRKINT then some ({ d.flush .both with stopped := false }, [SIGINT])
  else (d.receiveByte 0).map fun (d, signals) => (d.applyThrottle, signals)

end Ldisc

/-! ## Operations -/

inductive Operation where
  | receive (bytes : List Byte)
  | receiveBreak
  | read (size : Nat)
  | readOutput (size : Nat)
  | writeOutput (bytes : List Byte)
  | flush (queue : Queue)
  | retune (termios : Termios)
  | setNumber (number : Int)
  | setOutputStopped (stopped : Bool)

inductive Answer where
  | signals (signals : List Int)
  | read (result : Read)
  | output (bytes : List Byte)
  | count (count : Nat)
  | done

/-- One operation; `none` is a call that does not return. -/
def Ldisc.perform (d : Ldisc) : Operation → Option (Ldisc × Answer)
  | .receive bytes => (d.receive bytes).map fun (d, signals) => (d, .signals signals)
  | .receiveBreak => d.receiveBreak.map fun (d, signals) => (d, .signals signals)
  | .read size => some ((d.read size).2, .read (d.read size).1)
  | .readOutput size => some ((d.readOutput size).2, .output (d.readOutput size).1)
  | .writeOutput bytes => some ((d.writeOutput bytes).2, .count (d.writeOutput bytes).1)
  | .flush queue => some (d.flush queue, .done)
  | .retune termios => some (d.retune termios, .done)
  | .setNumber number => some (d.setNumber number, .done)
  | .setOutputStopped stopped => some (d.setOutputStopped stopped, .done)

end Kinakaze.Terminal
