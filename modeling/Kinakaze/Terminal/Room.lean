import Kinakaze.Terminal.Queues
import Kinakaze.Library.Run

/-!
# Whether erasing ends

The loop that backs the cursor up ends only when its backspaces find room.
-/

namespace Kinakaze.Terminal

open Kinakaze.Library

variable {d d' : Ldisc} {byte : Byte}

/-- The room left after `columns` columns are backed over, with a blank for each unless they
belong to a tab; `none` if the queue fills first.  The last backspace may fill it. -/
def roomLeft (wasTab : Bool) (columns space : Nat) : Option Nat :=
  if wasTab then if columns ≤ space then some (space - columns) else none
  else if 3 * columns ≤ space then some (space - 3 * columns)
  else if 3 * columns = space + 2 then some 0
  else none

variable {space target fuel : Nat}

theorem roomLeft_tab (columns : Nat) (h : 0 < space) :
    roomLeft true (columns + 1) space = roomLeft true columns (space - 1) := by
  simp only [roomLeft, if_true]
  by_cases hfit : columns + 1 ≤ space
  · rw [if_pos hfit, if_pos (by omega), Nat.sub_sub, Nat.add_comm 1]
  · rw [if_neg hfit, if_neg (by omega)]

theorem roomLeft_turn (columns : Nat) (h : 3 ≤ space) :
    roomLeft false (columns + 1) space = roomLeft false columns (space - 3) := by
  simp only [roomLeft, Bool.false_eq_true, if_false]
  split_ifs <;> first | rfl | omega | (simp only [Option.some.injEq]; omega)

theorem roomLeft_one (columns : Nat) :
    roomLeft false (columns + 1) 1 = roomLeft false columns 0 := by
  simp only [roomLeft, Bool.false_eq_true, if_false]
  split_ifs <;> first | rfl | omega | (simp only [Option.some.injEq]; omega)

theorem roomLeft_two (columns : Nat) : roomLeft false (columns + 1) 2 = none := by
  simp only [roomLeft, Bool.false_eq_true, if_false]
  split_ifs <;> first | rfl | omega

theorem roomLeft_zero (wasTab : Bool) (space : Nat) : roomLeft wasTab 0 space = some space := by
  cases wasTab <;> simp [roomLeft]

theorem echoRaw_backspace (h : 0 < d.outputSpace) :
    d.echoRaw 0x08 = { d with column := d.column - 1, output := d.output ++ [0x08] } := by
  rw [echoRaw_plain 0x08 (Or.inl rfl), if_neg (by omega)]
  simp [Ldisc.trackColumn, Ldisc.emit]

theorem echoRaw_blank (h : 0 < d.outputSpace) :
    d.echoRaw 0x20 = { d with column := d.column + 1, output := d.output ++ [0x20] } := by
  rw [echoRaw_plain 0x20 (Or.inr rfl), if_neg (by omega)]
  simp [Ldisc.trackColumn, Ldisc.emit]

theorem outputSpace_append (bytes : List Byte) (column : Nat) :
    ({ d with column, output := d.output ++ bytes } : Ldisc).outputSpace =
      d.outputSpace - bytes.length := by
  simp only [Ldisc.outputSpace, List.length_append]
  omega

theorem backOver_room (wasTab : Bool) (hcolumn : 0 < d.column) (hspace : 0 < d.outputSpace) :
    (∃ n, (∀ columns, roomLeft wasTab (columns + 1) d.outputSpace =
          roomLeft wasTab columns (d.outputSpace - n)) ∧
        ∃ used : List Byte, used.length = n ∧
          backOver wasTab d = { d with column := d.column - 1, output := d.output ++ used }) ∨
      (∀ columns, roomLeft wasTab (columns + 1) d.outputSpace = none) ∧
        (backOver wasTab d).column = d.column ∧ (backOver wasTab d).outputSpace = 0 := by
  unfold backOver
  have hback := echoRaw_backspace hspace
  have hspace₁ := outputSpace_append (d := d) [0x08] (d.column - 1)
  cases wasTab with
  | true =>
    left
    refine ⟨1, fun columns => roomLeft_tab columns hspace, [0x08], rfl, ?_⟩
    rw [if_pos rfl, hback]
  | false =>
    rw [if_neg (by simp), hback]
    generalize hd₁ : ({ d with column := d.column - 1, output := d.output ++ [0x08] } : Ldisc) = d₁
      at hspace₁ ⊢
    have hcolumn₁ : d₁.column = d.column - 1 := by rw [← hd₁]
    simp only [List.length_singleton] at hspace₁
    by_cases hone : d₁.outputSpace = 0
    · -- only the first backspace finds room
      left
      refine ⟨1, fun columns => ?_, [0x08], rfl, ?_⟩
      · have hlast : d.outputSpace = 1 := by omega
        rw [hlast]
        exact roomLeft_one columns
      · rw [echoRaw_plain 0x20 (Or.inr rfl), if_pos hone, echoRaw_plain 0x08 (Or.inl rfl),
          if_pos hone, ← hd₁]
    have hblank := echoRaw_blank (d := d₁) (by omega)
    have hspace₂ := outputSpace_append (d := d₁) [0x20] (d₁.column + 1)
    rw [hblank]
    generalize hd₂ : ({ d₁ with column := d₁.column + 1, output := d₁.output ++ [0x20] } : Ldisc) =
      d₂ at hspace₂ ⊢
    have hcolumn₂ : d₂.column = d₁.column + 1 := by rw [← hd₂]
    simp only [List.length_singleton] at hspace₂
    by_cases htwo : d₂.outputSpace = 0
    · -- the blank moves the cursor forward again, and the queue is full
      right
      refine ⟨fun columns => ?_, ?_, ?_⟩
      · have hlast : d.outputSpace = 2 := by omega
        rw [hlast]
        exact roomLeft_two columns
      · rw [echoRaw_plain 0x08 (Or.inl rfl), if_pos htwo]
        omega
      · rw [echoRaw_plain 0x08 (Or.inl rfl), if_pos htwo]
        exact htwo
    · left
      refine ⟨3, fun columns => roomLeft_turn columns (by omega), [0x08, 0x20, 0x08], rfl, ?_⟩
      rw [echoRaw_backspace (by omega), ← hd₂, ← hd₁]
      simp

theorem eraseToColumn_room (wasTab : Bool) (columns : Nat) (hcolumn : d.column = target + columns) :
    match roomLeft wasTab columns d.outputSpace with
    | some left => ∃ output, OUTPUT_LIMIT - output.length = left ∧
        d.eraseToColumn target wasTab columns = some { d with output, column := target }
    | none => d.eraseToColumn target wasTab columns = none := by
  induction columns generalizing d with
  | zero =>
    have hsame : ({ d with output := d.output, column := target } : Ldisc) = d := by
      obtain rfl : d.column = target := hcolumn
      rfl
    rw [roomLeft_zero]
    exact ⟨d.output, rfl, by rw [eraseToColumn_done 0 (by omega), hsame]⟩
  | succ columns ih =>
    rw [eraseToColumn_succ target wasTab columns (by omega)]
    by_cases hzero : d.outputSpace = 0
    · have hnone : roomLeft wasTab (columns + 1) d.outputSpace = none := by
        unfold roomLeft
        rw [hzero]
        cases wasTab
        · rw [if_neg (by simp), if_neg (by omega), if_neg (by omega)]
        · simp
      rw [hnone, backOver_full wasTab hzero]
      exact eraseToColumn_full columns hzero (by omega)
    have hpositive : 0 < d.column := by omega
    rcases backOver_room wasTab hpositive (by omega) with
      ⟨n, hroom, used, hused, hturn⟩ | ⟨hroom, hcolumn', hspace'⟩
    · have hspace := outputSpace_append (d := d) used (d.column - 1)
      rw [← hturn, hused] at hspace
      have hcolumn' : (backOver wasTab d).column = target + columns := by
        rw [hturn]
        exact (by omega : d.column - 1 = target + columns)
      have hnext := ih hcolumn'
      rw [hspace, ← hroom] at hnext
      cases hleft : roomLeft wasTab (columns + 1) d.outputSpace with
      | none =>
        rw [hleft] at hnext
        exact hnext
      | some left =>
        rw [hleft] at hnext
        obtain ⟨output, hlength, hdone⟩ := hnext
        refine ⟨output, hlength, ?_⟩
        rw [hdone, hturn]
    · rw [hroom columns]
      exact eraseToColumn_full columns hspace' (by omega)

theorem backUp_room (target : Nat) (wasTab : Bool) :
    match roomLeft wasTab (d.column - target) d.outputSpace with
    | some left => ∃ output, OUTPUT_LIMIT - output.length = left ∧
        d.backUp target wasTab = some { d with output, column := min d.column target }
    | none => d.backUp target wasTab = none := by
  unfold Ldisc.backUp
  by_cases hcolumn : target ≤ d.column
  · rw [Nat.min_eq_right hcolumn]
    exact eraseToColumn_room wasTab (d.column - target) (by omega)
  · have hzero : d.column - target = 0 := by omega
    rw [hzero, roomLeft_zero, Nat.min_eq_left (by omega)]
    exact ⟨d.output, rfl, eraseToColumn_done 0 (by omega)⟩

/-! ## The characters that an erase takes away -/

/-- The characters that the loop takes away from the end of the line: the column that each
leads back to, and whether it is a tab. -/
def erasedFrom (kind : Erase) : Nat → Bool → Ldisc → List (Nat × Bool)
  | 0, _, _ => []
  | fuel + 1, seenWord, d =>
    if d.pending = 0 then []
    else
      let count := d.characterWidthBytes
      let byte := d.pendingByte (d.pending - count)
      if kind = .word ∧ Ldisc.wordByte byte = false ∧ seenWord then []
      else
        let seenWord := seenWord || (decide (kind = .word) && Ldisc.wordByte byte)
        (d.replayColumn (d.pending - count), byte == 0x09) ::
          if kind = .character then [] else erasedFrom kind fuel seenWord (d.discardPending count)

def Ldisc.erased (d : Ldisc) (kind : Erase) : List (Nat × Bool) := erasedFrom kind d.pending false d

/-- The queue has room for backing over the characters one after the other. -/
def roomFor : List (Nat × Bool) → Nat → Nat → Bool
  | [], _, _ => true
  | (target, wasTab) :: rest, column, space =>
    match roomLeft wasTab (column - target) space with
    | some left => roomFor rest (min column target) left
    | none => false

theorem widthFrom_screen (output : List Byte) (column : Nat) (stopped : Bool) (fuel count : Nat) :
    ({ d with output, column, stopped } : Ldisc).widthFrom fuel count = d.widthFrom fuel count := by
  induction fuel generalizing count with
  | zero => rfl
  | succ fuel ih =>
    unfold Ldisc.widthFrom
    rw [ih]
    rfl

theorem characterWidthBytes_screen (output : List Byte) (column : Nat) (stopped : Bool) :
    ({ d with output, column, stopped } : Ldisc).characterWidthBytes = d.characterWidthBytes := by
  unfold Ldisc.characterWidthBytes
  rw [widthFrom_screen]

theorem erasedFrom_screen (kind : Erase) (fuel : Nat) (seenWord : Bool) (output : List Byte)
    (column : Nat) (stopped : Bool) :
    erasedFrom kind fuel seenWord { d with output, column, stopped } =
      erasedFrom kind fuel seenWord d := by
  induction fuel generalizing d seenWord with
  | zero => rfl
  | succ fuel ih =>
    unfold erasedFrom
    rw [characterWidthBytes_screen]
    have hrest := ih (d := d.discardPending d.characterWidthBytes)
      (seenWord || (decide (kind = .word) &&
        Ldisc.wordByte (d.pendingByte (d.pending - d.characterWidthBytes))))
    dsimp only
    rw [← hrest]
    rfl

/-- The loop of an erase backs the cursor up. -/
def Ldisc.undraws (d : Ldisc) (kind : Erase) : Bool :=
  d.termios.lflag.any ECHO && !d.termios.lflag.any ECHOPRT &&
    (decide (kind ≠ .character) || d.termios.lflag.any ECHOE)

variable {kind : Erase}

theorem eraseEcho_undraws (h : d.undraws kind = true) (target : Nat) :
    d.eraseEcho kind byte target = d.backUp target (byte == 0x09) := by
  simp only [Ldisc.undraws, Bool.and_eq_true, Bool.not_eq_true', Bool.or_eq_true,
    decide_eq_true_eq] at h
  obtain ⟨⟨hecho, hprinting⟩, hkind⟩ := h
  unfold Ldisc.eraseEcho
  rw [if_neg (by simp [hecho]), if_neg (by simp [hprinting]), if_neg]
  rintro ⟨hcharacter, hechoe⟩
  rcases hkind with hkind | hkind
  · exact hkind hcharacter
  · rw [hkind] at hechoe
    cases hechoe

theorem eraseEcho_plain (h : d.undraws kind = false) (target : Nat) :
    ∃ d', d.eraseEcho kind byte target = some d' ∧ d'.termios = d.termios := by
  unfold Ldisc.eraseEcho
  dsimp only
  split_ifs with hecho hprinting hprinted hkind
  · exact ⟨_, rfl, rfl⟩
  · exact ⟨_, rfl, (echoChar_edits _ _).termios⟩
  · exact ⟨_, rfl, (echoChar_edits _ _).termios.trans (echoRaw_edits d _).termios⟩
  · exact ⟨_, rfl, (echoChar_edits _ _).termios⟩
  exfalso
  rw [Bool.not_eq_false] at hecho
  rw [Bool.not_eq_true] at hprinting
  simp only [Ldisc.undraws, hecho, hprinting, Bool.not_false, Bool.and_self, Bool.true_and,
    Bool.or_eq_false_iff, decide_eq_false_iff_not, not_not] at h
  exact hkind h

theorem undraws_of_termios (h : d'.termios = d.termios) : d'.undraws kind = d.undraws kind := by
  unfold Ldisc.undraws
  rw [h]

theorem eraseLoop_plain (fuel : Nat) (seenWord : Bool) (h : d.undraws kind = false) :
    (Ldisc.eraseLoop kind fuel seenWord d).isSome := by
  induction fuel generalizing d seenWord with
  | zero => rfl
  | succ fuel ih =>
    unfold Ldisc.eraseLoop
    dsimp only
    split_ifs
    · rfl
    · rfl
    all_goals
      have hundraws : (d.discardPending d.characterWidthBytes).undraws kind = false := h
      obtain ⟨d', hecho, htermios⟩ := eraseEcho_plain hundraws
        (d.replayColumn (d.pending - d.characterWidthBytes))
      rw [hecho]
    · rfl
    · exact ih _ ((undraws_of_termios htermios).trans h)

theorem eraseLoop_undraws (fuel : Nat) (seenWord : Bool) (h : d.undraws kind = true) :
    (Ldisc.eraseLoop kind fuel seenWord d).isSome =
      roomFor (erasedFrom kind fuel seenWord d) d.column d.outputSpace := by
  induction fuel generalizing d seenWord with
  | zero => rfl
  | succ fuel ih =>
    unfold Ldisc.eraseLoop erasedFrom
    dsimp only
    by_cases hpending : d.pending = 0
    · rw [if_pos hpending, if_pos hpending]
      rfl
    rw [if_neg hpending, if_neg hpending]
    by_cases hstop : kind = .word ∧
        Ldisc.wordByte (d.pendingByte (d.pending - d.characterWidthBytes)) = false ∧ seenWord
    · rw [if_pos hstop, if_pos hstop]
      rfl
    rw [if_neg hstop, if_neg hstop]
    generalize hseen : (seenWord || (decide (kind = .word) &&
      Ldisc.wordByte (d.pendingByte (d.pending - d.characterWidthBytes)))) = seen
    rw [eraseEcho_undraws (d := d.discardPending d.characterWidthBytes) h]
    have hroom := backUp_room (d := d.discardPending d.characterWidthBytes)
      (d.replayColumn (d.pending - d.characterWidthBytes))
      (d.pendingByte (d.pending - d.characterWidthBytes) == 0x09)
    have hcolumn : (d.discardPending d.characterWidthBytes).column = d.column := rfl
    have hspace : (d.discardPending d.characterWidthBytes).outputSpace = d.outputSpace := rfl
    rw [hcolumn, hspace] at hroom
    unfold roomFor
    cases hleft : roomLeft (d.pendingByte (d.pending - d.characterWidthBytes) == 0x09)
        (d.column - d.replayColumn (d.pending - d.characterWidthBytes)) d.outputSpace with
    | none =>
      rw [hleft] at hroom
      dsimp only at hroom ⊢
      rw [hroom]
      rfl
    | some left =>
      rw [hleft] at hroom
      obtain ⟨output, hlength, hup⟩ := hroom
      rw [hup]
      dsimp only
      by_cases hcharacter : kind = .character
      · rw [if_pos hcharacter, if_pos hcharacter]
        rfl
      rw [if_neg hcharacter, if_neg hcharacter]
      refine Eq.trans (ih seen ?_) ?_
      · exact h
      have hscreen := erasedFrom_screen (d := d.discardPending d.characterWidthBytes) kind fuel
        seen output (min d.column (d.replayColumn (d.pending - d.characterWidthBytes)))
        (d.discardPending d.characterWidthBytes).stopped
      · rw [← hlength, ← hscreen]
        rfl

/-! ### As many turns as there are bytes -/

theorem outputChar_pending (d : Ldisc) (byte : Byte) :
    (d.outputChar byte).2.pending = d.pending := by
  unfold Ldisc.outputChar Ldisc.outputNewline Ldisc.outputReturn Ldisc.outputTab Ldisc.trackColumn
  dsimp only
  split_ifs <;> rfl

theorem echoRaw_pending (d : Ldisc) (byte : Byte) : (d.echoRaw byte).pending = d.pending := by
  unfold Ldisc.echoRaw
  split_ifs
  · exact outputChar_pending d byte
  · rfl
  · unfold Ldisc.trackColumn
    split_ifs <;> rfl

theorem echoChar_pending (d : Ldisc) (byte : Byte) : (d.echoChar byte).pending = d.pending := by
  unfold Ldisc.echoChar
  dsimp only
  split_ifs
  · rw [echoRaw_pending, echoRaw_pending]
  · exact echoRaw_pending d byte

theorem eraseToColumn_pending {wasTab : Bool}
    (h : d.eraseToColumn target wasTab fuel = some d') : d'.pending = d.pending := by
  induction fuel generalizing d with
  | zero =>
    unfold Ldisc.eraseToColumn at h
    split_ifs at h
    cases h
    rfl
  | succ fuel ih =>
    unfold Ldisc.eraseToColumn at h
    split_ifs at h
    · exact (ih h).trans (echoRaw_pending d _)
    · rw [ih h, echoRaw_pending, echoRaw_pending, echoRaw_pending]
    · cases h
      rfl

theorem eraseEcho_pending
    (h : d.eraseEcho kind byte target = some d') : d'.pending = d.pending := by
  unfold Ldisc.eraseEcho at h
  dsimp only at h
  split_ifs at h
  · cases h
    rfl
  · cases h
    exact echoChar_pending d byte
  · cases h
    exact (echoChar_pending _ byte).trans (echoRaw_pending d _)
  · cases h
    exact echoChar_pending d _
  · exact eraseToColumn_pending h

theorem one_le_widthFrom (fuel : Nat) {count : Nat} (h : 1 ≤ count) :
    1 ≤ d.widthFrom fuel count := by
  induction fuel generalizing count with
  | zero => exact h
  | succ fuel ih =>
    unfold Ldisc.widthFrom
    split_ifs
    · exact h
    · exact ih (by omega)
    · exact h

theorem one_le_characterWidthBytes (d : Ldisc) : 1 ≤ d.characterWidthBytes := by
  unfold Ldisc.characterWidthBytes
  split_ifs
  · exact Nat.le_refl 1
  · exact one_le_widthFrom _ (Nat.le_refl 1)

theorem eraseLoop_enough {more : Nat} (seenWord : Bool) (hfuel : d.pending ≤ fuel)
    (hmore : d.pending ≤ more) :
    Ldisc.eraseLoop kind fuel seenWord d = Ldisc.eraseLoop kind more seenWord d := by
  induction fuel generalizing d more seenWord with
  | zero =>
    have hpending : d.pending = 0 := Nat.le_zero.mp hfuel
    cases more with
    | zero => rfl
    | succ more => rw [Ldisc.eraseLoop, Ldisc.eraseLoop, if_pos hpending]
  | succ fuel ih =>
    by_cases hpending : d.pending = 0
    · cases more with
      | zero => rw [Ldisc.eraseLoop, Ldisc.eraseLoop, if_pos hpending]
      | succ more => rw [Ldisc.eraseLoop, Ldisc.eraseLoop, if_pos hpending, if_pos hpending]
    obtain ⟨more, rfl⟩ : ∃ n, more = n + 1 := ⟨more - 1, by omega⟩
    unfold Ldisc.eraseLoop
    dsimp only
    split_ifs
    · rfl
    · rfl
    · cases hecho : (d.discardPending d.characterWidthBytes).eraseEcho kind
          (d.pendingByte (d.pending - d.characterWidthBytes))
          (d.replayColumn (d.pending - d.characterWidthBytes)) with
      | none => rfl
      | some d' =>
        have hless : d'.pending < d.pending := by
          rw [eraseEcho_pending hecho]
          have hwidth := one_le_characterWidthBytes d
          show d.pending - min d.characterWidthBytes d.pending < d.pending
          omega
        exact ih _ (by omega) (by omega)

/-- The kill character takes the line away character by character. -/
def Ldisc.unravels (d : Ldisc) (kind : Erase) : Bool :=
  decide (kind ≠ .line) ||
    d.termios.lflag &&& (ECHOKE ||| ECHOE ||| ECHOK) == ECHOKE ||| ECHOE ||| ECHOK

theorem erased_empty (h : d.pending = 0) : d.erased kind = [] := by
  unfold Ldisc.erased
  rw [h]
  rfl

/-- An erase that backs the cursor up has room for it. -/
def Ldisc.RoomToErase (d : Ldisc) (kind : Erase) : Prop :=
  d.undraws kind = true → d.unravels kind = true →
    roomFor (d.erased kind) d.column d.outputSpace = true

theorem erase_returns_iff : (d.erase kind).isSome ↔ d.RoomToErase kind := by
  unfold Ldisc.erase Ldisc.RoomToErase
  dsimp only
  by_cases hpending : d.pending = 0
  · rw [if_pos hpending, erased_empty hpending]
    simp [roomFor]
  rw [if_neg hpending]
  by_cases hquiet : kind = .line ∧ d.termios.lflag.any ECHO = false
  · rw [if_pos hquiet]
    simp [Ldisc.undraws, hquiet.2]
  rw [if_neg hquiet]
  by_cases hunravels : d.unravels kind = true
  · have hloop : ¬ (kind = .line ∧
        d.termios.lflag &&& (ECHOKE ||| ECHOE ||| ECHOK) ≠ ECHOKE ||| ECHOE ||| ECHOK) := by
      rintro ⟨hline, hflags⟩
      simp only [Ldisc.unravels, Bool.or_eq_true, decide_eq_true_eq, beq_iff_eq] at hunravels
      exact hunravels.elim (fun h => h hline) hflags
    rw [if_neg hloop, Option.isSome_map]
    by_cases hundraws : d.undraws kind = true
    · rw [eraseLoop_undraws _ _ hundraws]
      simp [hundraws, hunravels, Ldisc.erased]
    · simp [eraseLoop_plain d.pending false (Bool.not_eq_true _ ▸ hundraws), hundraws]
  · have hone : kind = .line ∧
        d.termios.lflag &&& (ECHOKE ||| ECHOE ||| ECHOK) ≠ ECHOKE ||| ECHOE ||| ECHOK := by
      simpa [Ldisc.unravels, not_or] using hunravels
    rw [if_pos hone]
    simp [hunravels]

/-! ## Receiving -/

/-- What of a received byte reaches the editor: not a byte that is taken literally, one that the
translation drops, nor one that flow control or a signal takes. -/
def Ldisc.edited (d : Ldisc) (byte : Byte) : Option Byte :=
  if d.literal then none
  else (d.translate byte).filter fun byte =>
    !(d.termios.iflag.any IXON && (d.termios.matches VSTOP byte || d.termios.matches VSTART byte)) &&
      !(d.termios.lflag.any ISIG && (d.signalOf byte).isSome) && d.termios.lflag.any ICANON

/-- The erase that an edited byte asks for. -/
def Ldisc.eraseOf (d : Ldisc) (byte : Byte) : Option Erase :=
  if d.termios.matches VERASE byte then some .character
  else if d.termios.matches VKILL byte then some .line
  else if d.termios.lflag.any IEXTEN ∧ d.termios.matches VWERASE byte then some .word
  else none

/-- If the byte is an erase character, there is room to erase. -/
def Ldisc.RoomToReceive (d : Ldisc) (byte : Byte) : Prop :=
  ∀ byte' ∈ d.edited byte, ∀ kind ∈ d.eraseOf byte', d.RoomToErase kind

theorem receiveCanonical_returns_iff :
    (d.receiveCanonical byte).isSome ↔ ∀ kind ∈ d.eraseOf byte, d.RoomToErase kind := by
  unfold Ldisc.receiveCanonical Ldisc.eraseOf
  dsimp only
  by_cases herase : d.termios.matches VERASE byte = true
  · rw [if_pos herase, if_pos herase, erase_returns_iff]
    simp
  rw [if_neg herase, if_neg herase]
  by_cases hkill : d.termios.matches VKILL byte = true
  · rw [if_pos hkill, if_pos hkill, erase_returns_iff]
    simp
  rw [if_neg hkill, if_neg hkill]
  by_cases hword : d.termios.lflag.any IEXTEN = true ∧ d.termios.matches VWERASE byte = true
  · rw [if_pos hword, if_pos hword, erase_returns_iff]
    simp
  rw [if_neg hword, if_neg hword]
  simp only [Option.mem_def, reduceCtorEq, false_implies, implies_true, iff_true]
  split_ifs <;> rfl

theorem receiveText_returns_iff : (d.receiveText byte).isSome ↔
    (d.termios.lflag.any ISIG && (d.signalOf byte).isSome) = false →
      d.termios.lflag.any ICANON = true → ∀ kind ∈ d.eraseOf byte, d.RoomToErase kind := by
  unfold Ldisc.receiveText
  split
  · next signal hsignal =>
    have htaken : (d.termios.lflag.any ISIG && (d.signalOf byte).isSome) = true := by
      split_ifs at hsignal with hisig
      rw [hisig, hsignal]
      rfl
    simp [htaken]
  · next hsignal =>
    have huntaken : (d.termios.lflag.any ISIG && (d.signalOf byte).isSome) = false := by
      split_ifs at hsignal with hisig
      · rw [hsignal, Option.isSome_none, Bool.and_false]
      · rw [eq_false_of_ne_true hisig, Bool.false_and]
    by_cases hcanonical : d.termios.lflag.any ICANON = true
    · rw [if_pos hcanonical, Option.isSome_map, receiveCanonical_returns_iff]
      exact ⟨fun h _ _ => h, fun h => h huntaken hcanonical⟩
    · simp [hcanonical]

theorem roomToErase_stopped (stopped : Bool) (kind : Erase) :
    ({ d with stopped } : Ldisc).RoomToErase kind ↔ d.RoomToErase kind := by
  have herased : ({ d with stopped } : Ldisc).erased kind = d.erased kind :=
    erasedFrom_screen kind d.pending false d.output d.column stopped
  unfold Ldisc.RoomToErase
  rw [herased]
  rfl

theorem receiveByte_returns_iff : (d.receiveByte byte).isSome ↔ d.RoomToReceive byte := by
  unfold Ldisc.receiveByte Ldisc.RoomToReceive Ldisc.edited
  by_cases hliteral : d.literal = true
  · simp [hliteral]
  rw [if_neg hliteral, if_neg hliteral]
  cases htranslate : d.translate byte with
  | none => simp
  | some byte' =>
    dsimp only
    by_cases hstop : d.termios.iflag.any IXON = true ∧ d.termios.matches VSTOP byte' = true
    · rw [if_pos hstop]
      simp [hstop.1, hstop.2]
    rw [if_neg hstop]
    by_cases hstart : d.termios.iflag.any IXON = true ∧ d.termios.matches VSTART byte' = true
    · rw [if_pos hstart]
      simp [hstart.1, hstart.2]
    rw [if_neg hstart]
    have hflow : (d.termios.iflag.any IXON &&
        (d.termios.matches VSTOP byte' || d.termios.matches VSTART byte')) = false := by
      rw [not_and_or, Bool.not_eq_true, Bool.not_eq_true] at hstop hstart
      rcases hstop with hixon | hstop
      · rw [hixon, Bool.false_and]
      · rcases hstart with hixon | hstart
        · rw [hixon, Bool.false_and]
        · rw [hstop, hstart, Bool.or_false, Bool.and_false]
    have htext : ((if d.stopped ∧ d.termios.iflag &&& (IXON ||| IXANY) = IXON ||| IXANY then
          { d with stopped := false } else d).receiveText byte').isSome ↔
        (d.receiveText byte').isSome := by
      split_ifs
      · rw [receiveText_returns_iff, receiveText_returns_iff]
        simp only [roomToErase_stopped]
        rfl
      · rfl
    rw [htext, receiveText_returns_iff]
    simp only [Option.mem_def, Option.filter_eq_some_iff, Bool.and_eq_true, Bool.not_eq_true']
    constructor
    · rintro h byte'' ⟨hsame, ⟨-, huntaken⟩, hcanonical⟩
      cases hsame
      exact h huntaken hcanonical
    · exact fun h huntaken hcanonical => h byte' ⟨rfl, ⟨hflow, huntaken⟩, hcanonical⟩

/-! ## Runs -/

/-- One byte to a call that is still running. -/
def Ldisc.takeIn (d : Option Ldisc) (byte : Byte) : Option Ldisc :=
  d.bind fun d => (d.receiveByte byte).map Prod.fst

/-- One operation; after a call that does not return there is none. -/
def Ldisc.advance (d : Option Ldisc) (operation : Operation) : Option Ldisc :=
  d.bind fun d => (d.perform operation).map Prod.fst

/-- Each of the bytes finds room where it is received. -/
def Ldisc.RoomForAll (d : Ldisc) (bytes : List Byte) : Prop :=
  EveryStep Ldisc.takeIn (fun d byte => ∀ d' ∈ d, d'.RoomToReceive byte) (some d) bytes

/-- The operation finds room for whatever it erases. -/
def Ldisc.RoomToPerform (d : Ldisc) : Operation → Prop
  | .receive bytes => d.number = N_TTY → d.RoomForAll bytes
  | .receiveBreak => d.termios.iflag.any IGNBRK = false → d.termios.iflag.any BRKINT = false →
      d.RoomToReceive 0
  | _ => True

theorem receiveBytes_returns_iff (bytes : List Byte) :
    (Ldisc.receiveBytes bytes d).isSome ↔ d.RoomForAll bytes := by
  induction bytes generalizing d with
  | nil => simp [Ldisc.receiveBytes, Ldisc.RoomForAll, EveryStep]
  | cons byte rest ih =>
    have hbyte : (d.receiveByte byte).isSome ↔ d.RoomToReceive byte := receiveByte_returns_iff
    unfold Ldisc.receiveBytes Ldisc.RoomForAll EveryStep
    simp only [Option.mem_some_iff, forall_eq', ← hbyte]
    cases hstep : d.receiveByte byte with
    | none => simp
    | some after =>
      have hnext : Ldisc.takeIn (some d) byte = some after.1 := by
        simp [Ldisc.takeIn, hstep]
      rw [hnext]
      simp only [Option.isSome_map, ih, Option.isSome_some, true_and]
      rfl

theorem receive_returns_iff (bytes : List Byte) :
    (d.receive bytes).isSome ↔ (d.number = N_TTY → d.RoomForAll bytes) := by
  unfold Ldisc.receive
  by_cases hnumber : d.number = N_TTY
  · rw [if_neg (not_not.mpr hnumber), Option.isSome_map, receiveBytes_returns_iff]
    exact ⟨fun h _ => h, fun h => h hnumber⟩
  · rw [if_pos hnumber]
    exact ⟨fun _ h => absurd h hnumber, fun _ => rfl⟩

theorem perform_returns_iff (operation : Operation) :
    (d.perform operation).isSome ↔ d.RoomToPerform operation := by
  cases operation with
  | receive bytes =>
    unfold Ldisc.perform Ldisc.RoomToPerform
    rw [Option.isSome_map, receive_returns_iff]
  | receiveBreak =>
    unfold Ldisc.perform Ldisc.RoomToPerform Ldisc.receiveBreak
    rw [Option.isSome_map]
    by_cases hignored : d.termios.iflag.any IGNBRK = true
    · simp [hignored]
    rw [if_neg hignored]
    by_cases hsignal : d.termios.iflag.any BRKINT = true
    · simp [hsignal]
    rw [if_neg hsignal, Option.isSome_map, receiveByte_returns_iff]
    simp [hignored, hsignal]
  | _ => exact ⟨fun _ => trivial, fun _ => rfl⟩

/-- Receiving a byte returns just where the queue has room for backing the cursor up over what the
byte erases; otherwise the loop over the columns goes on for ever, while the loop over the
characters ends after as many turns as the line has bytes.  A run of operations on a new terminal
returns from each of them exactly when each of them has that room. -/
theorem receive_returns_where_room (termios : Termios) (operations : List Operation) :
    (∀ (d : Ldisc) (byte : Byte), (d.receive [byte]).isSome ↔
      (d.number = N_TTY → d.RoomToReceive byte)) ∧
    (∀ (d : Ldisc) (target : Nat) (wasTab : Bool), d.backUp target wasTab = none ↔
      ∀ fuel, d.eraseToColumn target wasTab fuel = none) ∧
    (∀ (d : Ldisc) (kind : Erase) (more : Nat) (seenWord : Bool),
      Ldisc.eraseLoop kind (d.pending + more) seenWord d =
        Ldisc.eraseLoop kind d.pending seenWord d) ∧
    (EveryState Ldisc.advance (fun d => d.isSome) (some (.new termios)) operations ↔
      EveryStep Ldisc.advance (fun d operation => ∀ d' ∈ d, d'.RoomToPerform operation)
        (some (.new termios)) operations) := by
  refine ⟨?_, fun _ _ _ => backUp_eq_none_iff,
    fun d _ _ seenWord => eraseLoop_enough seenWord (Nat.le_add_right _ _) (Nat.le_refl _), ?_⟩
  · intro d byte
    rw [receive_returns_iff]
    simp [Ldisc.RoomForAll, EveryStep]
  · refine everyState_iff_everyStep (I := fun _ => True) (fun _ _ _ => trivial) ?_ trivial rfl
    intro d operation _ hd
    obtain ⟨d, rfl⟩ := Option.isSome_iff_exists.mp hd
    simp only [Ldisc.advance, Option.bind_some, Option.isSome_map, Option.mem_some_iff, forall_eq']
    exact perform_returns_iff operation

/-! ## A terminal nobody reads from -/

theorem outputChar_letter (h : 0 < d.outputSpace) : d.outputChar 0x61 =
      (true, { d with column := d.column + 1, output := d.output ++ [0x61] }) := by
  have hroom : ¬ d.outputSpace < 1 := by omega
  simp [Ldisc.outputChar, hroom, Ldisc.trackColumn, Ldisc.emit]

theorem outputChars_letters (count : Nat) (h : count ≤ d.outputSpace) :
    (Ldisc.outputChars (List.replicate count 0x61) d).2 =
      { d with column := d.column + count, output := d.output ++ List.replicate count 0x61 } := by
  induction count generalizing d with
  | zero => simp [Ldisc.outputChars]
  | succ count ih =>
    rw [List.replicate_succ, Ldisc.outputChars, outputChar_letter (by omega)]
    dsimp only
    rw [ih (by rw [outputSpace_append, List.length_singleton]; omega)]
    simp [Nat.add_assoc, Nat.add_comm 1]

/-- A terminal after so many columns of output. -/
def written (output : List Byte) : Ldisc :=
  { Ldisc.new defaultTermios with column := output.length, output }

/-- The letter typed after it. -/
def typedAfter (output : List Byte) : Ldisc :=
  { Ldisc.new defaultTermios with
    input := [0x61]
    pending := 1
    output := output ++ [0x61]
    column := output.length + 1
    canonColumn := output.length }

theorem written_store (output : List Byte) (h : output.length < OUTPUT_LIMIT) :
    (written output).store 0x61 = typedAfter output := by
  have hspace : ¬ OUTPUT_LIMIT - output.length = 0 := by omega
  have hfull : ¬ INPUT_LIMIT ≤ 0 := by decide
  have hopost : defaultTermios.oflag.any OPOST = true := by decide
  have hecho : defaultTermios.lflag.any ECHO = true := by decide
  have hcanonical : defaultTermios.lflag.any ICANON = true := by decide
  simp [Ldisc.store, Ldisc.echoChar, Ldisc.echoRaw, Ldisc.outputChar, Ldisc.outputSpace,
    Ldisc.trackColumn, Ldisc.emit, Ldisc.canonical, written, typedAfter, Ldisc.new, hopost, hecho,
    hcanonical, hfull, hspace]

theorem written_receive (output : List Byte) (h : output.length < OUTPUT_LIMIT) :
    (written output).perform (.receive [0x61]) = some (typedAfter output, .signals []) := by
  have hmatches : ∀ slot, defaultTermios.matches slot 97#8 = false := by decide
  have hstrip : defaultTermios.iflag.any ISTRIP = false := by decide
  have hcanonical : defaultTermios.lflag.any ICANON = true := by decide
  have hbyte : (written output).receiveByte 0x61 = some ((written output).store 0x61, []) := by
    simp [Ldisc.receiveByte, Ldisc.translate, Ldisc.receiveText, Ldisc.signalOf,
      Ldisc.receiveCanonical, Ldisc.finishErasePrinting, written, Ldisc.new, hmatches, hstrip,
      hcanonical]
  rw [written_store output h] at hbyte
  have hthrottle : (typedAfter output).applyThrottle = typedAfter output :=
    if_pos (Or.inl (by decide : defaultTermios.iflag.any IXOFF = false))
  have hnumber : ¬ (written output).number ≠ N_TTY := not_not.mpr rfl
  simp only [Ldisc.perform, Ldisc.receive, Ldisc.receiveBytes, hbyte, hnumber, if_false,
    Option.map_some, hthrottle, List.nil_append]

theorem typedAfter_erase (output : List Byte) (h : output.length + 1 = OUTPUT_LIMIT) :
    (typedAfter output).perform (.receive [0x7f]) = none := by
  have hedited : (typedAfter output).edited 0x7f = some 0x7f :=
    (by decide : (Ldisc.new defaultTermios).edited 0x7f = some 0x7f)
  have herase : (typedAfter output).eraseOf 0x7f = some .character :=
    (by decide : (Ldisc.new defaultTermios).eraseOf 0x7f = some .character)
  have hundraws : (typedAfter output).undraws .character = true :=
    (by decide : (Ldisc.new defaultTermios).undraws .character = true)
  have hwidth : (typedAfter output).characterWidthBytes = 1 :=
    if_pos (Or.inl (by decide : defaultTermios.iflag.any IUTF8 = false))
  have herased : (typedAfter output).erased .character = [(output.length, false)] := by
    unfold Ldisc.erased
    show erasedFrom .character 1 false (typedAfter output) = _
    unfold erasedFrom
    dsimp only
    have hpending : ¬ (typedAfter output).pending = 0 := Nat.one_ne_zero
    rw [hwidth, if_neg hpending, if_neg fun h => nomatch h.1]
    rfl
  rw [← Option.not_isSome_iff_eq_none, perform_returns_iff]
  intro hroom
  have hbyte := (hroom rfl).1 _ rfl _ hedited _ herase hundraws rfl
  rw [herased] at hbyte
  have hspace : (typedAfter output).outputSpace = 0 := by
    show OUTPUT_LIMIT - (output ++ [0x61]).length = 0
    rw [List.length_append, List.length_singleton]
    omega
  have hcolumn : (typedAfter output).column - output.length = 1 := Nat.add_sub_cancel_left _ _
  simp [roomFor, hspace, hcolumn, roomLeft] at hbyte

theorem writeOutput_letters (count : Nat) (h : count ≤ OUTPUT_LIMIT) :
    ((Ldisc.new defaultTermios).writeOutput (List.replicate count 0x61)).2 =
      written (List.replicate count 0x61) := by
  unfold Ldisc.writeOutput
  rw [if_neg (by decide), outputChars_letters _ h]
  simp [written, Ldisc.new]

theorem advance_letter (letters : List Byte) (h : letters.length < OUTPUT_LIMIT)
    (hwrite : ((Ldisc.new defaultTermios).writeOutput letters).2 = written letters) :
    run Ldisc.advance (some (.new defaultTermios)) [.writeOutput letters, .receive [0x61]] =
      some (typedAfter letters) := by
  have hreceive := congrArg (Option.map Prod.fst) (written_receive letters h)
  calc run Ldisc.advance (some (.new defaultTermios)) [.writeOutput letters, .receive [0x61]]
    _ = Ldisc.advance (some ((Ldisc.new defaultTermios).writeOutput letters).2)
          (.receive [0x61]) := rfl
    _ = some (typedAfter letters) := by
      rw [hwrite]
      exact hreceive

/-- One column short of what the queue holds is written, a letter typed and erased. -/
theorem erase_wedges : ∃ d, run Ldisc.advance (some (.new defaultTermios))
        [.writeOutput (List.replicate 16383 0x61), .receive [0x61]] = some d ∧
      d.receive [0x7f] = none := by
  have hlength : (List.replicate 16383 (0x61 : Byte)).length = 16383 := List.length_replicate
  have hless : 16383 < OUTPUT_LIMIT := by decide
  refine ⟨typedAfter (List.replicate 16383 0x61), ?_, ?_⟩
  · refine advance_letter _ ?_ (writeOutput_letters 16383 (Nat.le_of_lt hless))
    rw [hlength]
    exact hless
  · have herase := typedAfter_erase (List.replicate 16383 0x61) (by rw [hlength]; decide)
    rw [Ldisc.perform, Option.map_eq_none_iff] at herase
    exact herase

end Kinakaze.Terminal
