import Kinakaze.Terminal.Room
import Mathlib.Data.List.GetD

/-!
# What echo and erase leave on the screen

* `shown`, `echoChar_shows`: where echoing a byte leaves the column.
* `Retreat`, `erase_retreat`: what a visual erase leaves.
-/

namespace Kinakaze.Terminal

variable {d d' : Ldisc} {byte : Byte}

/-! ## Echo -/

/-- The column after `byte` is echoed. -/
def Ldisc.shown (d : Ldisc) (byte : Byte) : Nat :=
  if byte = 0x09 then d.column + (TAB_WIDTH - d.column % TAB_WIDTH)
  else if byte < 0x20 ∨ byte = 0x7f then
    if d.termios.lflag.any ECHOCTL then d.column + 2
    else if byte = 0x08 then d.column - 1
    else if byte = 0x0d then
      if d.termios.oflag.any OPOST ∧ d.termios.oflag.any OCRNL ∧
        d.termios.oflag.any ONLRET = false then d.column else 0
    else d.column
  else if d.termios.iflag.any IUTF8 ∧ byte &&& 0xc0 = 0x80 then d.column
  else d.column + 1

/-- `d'` has the same line as `d`, and the cursor in column `place`; the start of the line is as it was
unless a carriage return has taken the cursor to the left edge. -/
structure Shows (d : Ldisc) (place : Nat) (d' : Ldisc) : Prop where
  termios : d'.termios = d.termios
  number : d'.number = d.number
  input : d'.input = d.input
  pending : d'.pending = d.pending
  erasePrinting : d'.erasePrinting = d.erasePrinting
  column : d'.column = place
  canonColumn : d'.canonColumn = d.canonColumn ∨ place = 0 ∧ d'.canonColumn = 0

theorem echoRaw_emit (hspace : 0 < d.outputSpace) (hnewline : byte ≠ 0x0a) (hreturn : byte ≠ 0x0d)
    (htab : byte ≠ 0x09) : d.echoRaw byte = (d.trackColumn byte).emit [byte] := by
  unfold Ldisc.echoRaw Ldisc.outputChar
  rw [if_neg hnewline, if_neg hreturn, if_neg htab, if_neg (by omega : ¬ d.outputSpace < 1),
    if_neg (by omega : ¬ d.outputSpace = 0)]
  split_ifs <;> rfl

theorem echoRaw_shows (hspace : 0 < d.outputSpace) (hnewline : byte ≠ 0x0a) (hreturn : byte ≠ 0x0d)
    (htab : byte ≠ 0x09) : Shows d (d.trackColumn byte).column (d.echoRaw byte) := by
  rw [echoRaw_emit hspace hnewline hreturn htab]
  unfold Ldisc.trackColumn
  split_ifs
  all_goals exact ⟨rfl, rfl, rfl, rfl, rfl, rfl, .inl rfl⟩

theorem echoRaw_tab (hspace : TAB_WIDTH ≤ d.outputSpace) :
    Shows d (d.column + (TAB_WIDTH - d.column % TAB_WIDTH)) (d.echoRaw 0x09) := by
  have hroom : ¬ d.outputSpace < TAB_WIDTH - d.column % TAB_WIDTH := by omega
  have hone : ¬ d.outputSpace < 1 := by
    unfold TAB_WIDTH at hspace
    omega
  unfold Ldisc.echoRaw
  by_cases hopost : d.termios.oflag.any OPOST = true
  · rw [if_pos hopost]
    unfold Ldisc.outputChar Ldisc.outputTab
    dsimp only
    rw [if_neg (by decide), if_neg (by decide), if_pos rfl, if_neg hroom, if_neg hone]
    split_ifs
    all_goals exact ⟨rfl, rfl, rfl, rfl, rfl, rfl, .inl rfl⟩
  · rw [if_neg hopost, if_neg (by omega)]
    exact ⟨rfl, rfl, rfl, rfl, rfl, rfl, .inl rfl⟩

theorem echoRaw_return (hspace : 0 < d.outputSpace) :
    Shows d (if d.termios.oflag.any OPOST ∧ d.termios.oflag.any OCRNL ∧
      d.termios.oflag.any ONLRET = false then d.column else 0) (d.echoRaw 0x0d) := by
  have hroom : ¬ d.outputSpace < 1 := by omega
  have hfull : ¬ d.outputSpace = 0 := by omega
  have hnewline : ¬ (0x0d : Byte) = 0x0a := by decide
  generalize hplace : (if d.termios.oflag.any OPOST ∧ d.termios.oflag.any OCRNL ∧
    d.termios.oflag.any ONLRET = false then d.column else 0) = place
  unfold Ldisc.echoRaw Ldisc.outputChar Ldisc.outputReturn
  dsimp only
  rw [if_neg hnewline, if_pos rfl, if_neg hroom, if_neg hfull]
  by_cases hopost : d.termios.oflag.any OPOST = true
  · rw [if_pos hopost]
    by_cases hnocr : d.termios.oflag.any ONOCR = true ∧ d.column = 0
    · rw [if_pos hnocr]
      have hzero : place = 0 := by
        rw [← hplace, hnocr.2, ite_self]
      exact ⟨rfl, rfl, rfl, rfl, rfl, hnocr.2.trans hzero.symm, .inl rfl⟩
    rw [if_neg hnocr]
    by_cases hocrnl : d.termios.oflag.any OCRNL = true
    · rw [if_pos hocrnl]
      by_cases honlret : d.termios.oflag.any ONLRET = true
      · have hzero : place = 0 := by
          rw [← hplace, if_neg fun h => Bool.noConfusion (honlret.symm.trans h.2.2)]
        rw [if_pos honlret, hzero]
        exact ⟨rfl, rfl, rfl, rfl, rfl, rfl, .inr ⟨rfl, rfl⟩⟩
      · have hsame : place = d.column := by
          rw [← hplace, if_pos ⟨hopost, hocrnl, eq_false_of_ne_true honlret⟩]
        rw [if_neg honlret, hsame]
        exact ⟨rfl, rfl, rfl, rfl, rfl, rfl, .inl rfl⟩
    · have hzero : place = 0 := by
        rw [← hplace, if_neg fun h => hocrnl h.2.1]
      rw [if_neg hocrnl, hzero]
      exact ⟨rfl, rfl, rfl, rfl, rfl, rfl, .inr ⟨rfl, rfl⟩⟩
  · have hzero : place = 0 := by
      rw [← hplace, if_neg fun h => hopost h.1]
    rw [if_neg hopost, hzero]
    exact ⟨rfl, rfl, rfl, rfl, rfl, rfl, .inl rfl⟩

theorem Shows.trans {place place' : Nat} {d'' : Ldisc} (h : Shows d place d')
    (h' : Shows d' place' d'') (hplace : 0 < place) : Shows d place' d'' where
  termios := h'.termios.trans h.termios
  number := h'.number.trans h.number
  input := h'.input.trans h.input
  pending := h'.pending.trans h.pending
  erasePrinting := h'.erasePrinting.trans h.erasePrinting
  column := h'.column
  canonColumn := by
    have hcanon : d'.canonColumn = d.canonColumn :=
      h.canonColumn.resolve_right fun hzero => Nat.ne_of_gt hplace hzero.1
    rw [← hcanon]
    exact h'.canonColumn

theorem caret_letter : ∀ byte : Byte, (byte < 0x20 ∨ byte = 0x7f) →
    byte ^^^ 0x40 ≠ 0x0a ∧ byte ^^^ 0x40 ≠ 0x0d ∧ byte ^^^ 0x40 ≠ 0x09 ∧ byte ^^^ 0x40 ≠ 0x08 ∧
      ¬ (byte ^^^ 0x40) &&& 0xc0 = 0x80 ∧ byte ^^^ 0x40 ≥ 0x20 ∧ byte ^^^ 0x40 ≠ 0x7f := by
  decide +kernel

theorem trackColumn_letter (hnewline : byte ≠ 0x0a) (hreturn : byte ≠ 0x0d) (hback : byte ≠ 0x08)
    (htab : byte ≠ 0x09) (hletter : byte ≥ 0x20) (hdelete : byte ≠ 0x7f) :
    (d.trackColumn byte).column =
      if d.termios.iflag.any IUTF8 ∧ byte &&& 0xc0 = 0x80 then d.column else d.column + 1 := by
  unfold Ldisc.trackColumn
  rw [if_neg (not_or.mpr ⟨hnewline, hreturn⟩), if_neg hback, if_neg htab]
  split_ifs with hutf hplain
  · rfl
  · rfl
  · exact absurd ⟨hletter, hdelete⟩ hplain

theorem trackColumn_control (hreturn : byte ≠ 0x0d) (hback : byte ≠ 0x08) (hnewline : byte ≠ 0x0a)
    (htab : byte ≠ 0x09) (hcontrol : byte < 0x20 ∨ byte = 0x7f) :
    (d.trackColumn byte).column = d.column := by
  unfold Ldisc.trackColumn
  rw [if_neg (not_or.mpr ⟨hnewline, hreturn⟩), if_neg hback, if_neg htab]
  split_ifs with hutf hplain
  · rfl
  · rcases hcontrol with hlow | hdelete
    · exact absurd hlow (BitVec.not_lt.mpr hplain.1)
    · exact absurd hdelete hplain.2
  · rfl

theorem echoChar_shows (hspace : TAB_WIDTH ≤ d.outputSpace) (hnewline : byte ≠ 0x0a) :
    Shows d (d.shown byte) (d.echoChar byte) := by
  have hroom : 1 < d.outputSpace := by
    unfold TAB_WIDTH at hspace
    omega
  unfold Ldisc.echoChar Ldisc.shown
  dsimp only
  by_cases htab : byte = 0x09
  · rw [if_pos htab, if_neg fun h => h.2.2.1 htab, htab]
    exact echoRaw_tab hspace
  rw [if_neg htab]
  have hflag : (decide (byte < 0x20) || decide (byte = 0x7f)) = true ↔
      (byte < 0x20 ∨ byte = 0x7f) := by
    rw [Bool.or_eq_true, decide_eq_true_eq, decide_eq_true_eq]
  by_cases hcontrol : byte < 0x20 ∨ byte = 0x7f
  · rw [if_pos hcontrol]
    by_cases hctl : d.termios.lflag.any ECHOCTL = true
    · -- a caret, and the letter 0x40 away
      rw [if_pos hctl, if_pos ⟨hctl, hflag.mpr hcontrol, htab, hnewline⟩]
      have hcaret : Shows d (d.trackColumn 0x5e).column (d.echoRaw 0x5e) :=
        echoRaw_shows (by omega) (by decide) (by decide) (by decide)
      rw [trackColumn_letter (by decide) (by decide) (by decide) (by decide) (by decide)
        (by decide), if_neg fun h => absurd h.2 (by decide)] at hcaret
      obtain ⟨h₁, h₂, h₃, h₄, h₅, h₆, h₇⟩ := caret_letter byte hcontrol
      have hspace' : 0 < (d.echoRaw 0x5e).outputSpace := by
        rw [echoRaw_emit (by omega) (by decide) (by decide) (by decide), outputSpace_emit, List.length_singleton]
        omega
      have hletter := echoRaw_shows hspace' h₁ h₂ h₃
      rw [trackColumn_letter h₁ h₂ h₄ h₃ h₆ h₇, if_neg fun h => h₅ h.2, hcaret.column] at hletter
      exact hcaret.trans hletter (Nat.succ_pos _)
    · have hbare : ¬ (d.termios.lflag.any ECHOCTL = true ∧
          (decide (byte < 0x20) || decide (byte = 0x7f)) = true ∧ byte ≠ 0x09 ∧ byte ≠ 0x0a) :=
        fun h => hctl h.1
      rw [if_neg hctl, if_neg hbare]
      by_cases hback : byte = 0x08
      · rw [if_pos hback, hback]
        have hbs : (0x08 : Byte) ≠ 0x0a := by decide
        exact echoRaw_shows (by omega) hbs (by decide) (by decide)
      rw [if_neg hback]
      by_cases hreturn : byte = 0x0d
      · rw [if_pos hreturn, hreturn]
        exact echoRaw_return (by omega)
      rw [if_neg hreturn]
      have hraw := echoRaw_shows (d := d) (by omega) hnewline hreturn htab
      rwa [trackColumn_control hreturn hback hnewline htab hcontrol] at hraw
  · have hplain : ¬ (d.termios.lflag.any ECHOCTL = true ∧
        (decide (byte < 0x20) || decide (byte = 0x7f)) = true ∧ byte ≠ 0x09 ∧ byte ≠ 0x0a) :=
      fun h => hcontrol (hflag.mp h.2.1)
    rw [if_neg hcontrol, if_neg hplain]
    rw [not_or, BitVec.not_lt] at hcontrol
    have hlow : ∀ control : Byte, control < 0x20 → byte ≠ control := by
      rintro control hless rfl
      exact absurd hcontrol.1 (BitVec.not_le.mpr hless)
    have hraw := echoRaw_shows (d := d) (by omega) hnewline (hlow 0x0d (by decide)) htab
    rwa [trackColumn_letter hnewline (hlow 0x0d (by decide)) (hlow 0x08 (by decide)) htab
      hcontrol.1 hcontrol.2] at hraw

/-! ## The line -/

theorem replayColumn_succ (d : Ldisc) (count : Nat) :
    d.replayColumn (count + 1) = d.replayByte (d.replayColumn count) (d.pendingByte count) := by
  unfold Ldisc.replayColumn
  rw [List.range_succ, List.foldl_append]
  rfl

variable {count index : Nat}

theorem replayColumn_congr (htermios : d'.termios = d.termios)
    (hcanon : d'.canonColumn = d.canonColumn)
    (hbytes : ∀ index < count, d'.pendingByte index = d.pendingByte index) :
    d'.replayColumn count = d.replayColumn count := by
  induction count with
  | zero => exact hcanon
  | succ count ih =>
    rw [replayColumn_succ, replayColumn_succ, ih fun index h => hbytes index (by omega),
      hbytes count (by omega)]
    unfold Ldisc.replayByte
    rw [htermios]

/-- A byte typed at the end of the line. -/
structure Typed (d : Ldisc) (byte : Byte) (d' : Ldisc) : Prop where
  termios : d'.termios = d.termios
  number : d'.number = d.number
  input : d'.input = d.input ++ [byte]
  pending : d'.pending = d.pending + 1
  erasePrinting : d'.erasePrinting = d.erasePrinting
  column : d'.column = d.shown byte
  canonColumn : d'.canonColumn = (if d.pending = 0 then d.column else d.canonColumn) ∨
    d.shown byte = 0 ∧ d'.canonColumn = 0

theorem store_typed (hcanonical : d.canonical = true) (hecho : d.termios.lflag.any ECHO = true)
    (hinput : d.input.length < INPUT_LIMIT) (hspace : TAB_WIDTH ≤ d.outputSpace)
    (hnewline : byte ≠ 0x0a) : Typed d byte (d.store byte) := by
  unfold Ldisc.store
  rw [if_neg (by omega : ¬ d.input.length ≥ INPUT_LIMIT)]
  have hstart : (if d.canonical ∧ d.pending = 0 then { d with canonColumn := d.column } else d) =
      { d with canonColumn := if d.pending = 0 then d.column else d.canonColumn } := by
    by_cases hpending : d.pending = 0
    · rw [if_pos ⟨hcanonical, hpending⟩, if_pos hpending]
    · rw [if_neg fun h => hpending h.2, if_neg hpending]
  rw [hstart]
  generalize hd₁ : ({ d with canonColumn := if d.pending = 0 then d.column else d.canonColumn } :
    Ldisc) = d₁
  have htermios : d₁.termios = d.termios := by rw [← hd₁]
  have hshows : Shows d₁ (d₁.shown byte) (d₁.echoChar byte) := by
    refine echoChar_shows ?_ hnewline
    rw [← hd₁]
    exact hspace
  have hcanonical' : (d₁.echoChar byte).canonical = true := by
    unfold Ldisc.canonical
    rw [hshows.termios, hshows.number, ← hd₁]
    exact hcanonical
  have hshown : d₁.shown byte = d.shown byte := by
    rw [← hd₁]
    rfl
  have hecho₁ : d₁.termios.lflag.any ECHO = true := by rw [htermios, hecho]
  dsimp only
  rw [if_pos hecho₁]
  have hmode : ({ d₁.echoChar byte with input := (d₁.echoChar byte).input ++ [byte] } :
      Ldisc).canonical = true := hcanonical'
  rw [if_pos hmode]
  refine ⟨hshows.termios.trans htermios, ?_, ?_, ?_, ?_, hshows.column.trans hshown, ?_⟩
  · rw [← hd₁] at hshows ⊢
    exact hshows.number
  · have hsame : d₁.input = d.input := by rw [← hd₁]
    show (d₁.echoChar byte).input ++ [byte] = _
    rw [hshows.input, hsame]
  · have hsame : d₁.pending = d.pending := by rw [← hd₁]
    show (d₁.echoChar byte).pending + 1 = _
    rw [hshows.pending, hsame]
  · rw [← hd₁] at hshows ⊢
    exact hshows.erasePrinting
  · have hcanon := hshows.canonColumn
    rw [hshown] at hcanon
    rw [← hd₁] at hcanon ⊢
    exact hcanon

theorem Typed.pendingByte (h : Typed d byte d') (hline : d.pending ≤ d.input.length)
    (hindex : index < d.pending) : d'.pendingByte index = d.pendingByte index := by
  unfold Ldisc.pendingByte
  rw [h.input, h.pending, List.length_append, List.length_singleton, if_pos (by omega),
    if_pos (by omega), List.getD_append _ _ _ _ (by omega)]
  congr 1
  omega

theorem Typed.pendingByte_last (h : Typed d byte d') : d'.pendingByte d.pending = byte := by
  unfold Ldisc.pendingByte
  rw [h.input, h.pending, List.length_append, List.length_singleton, if_pos (by omega),
    List.getD_append_right _ _ _ _ (by omega)]
  have hzero : d.input.length + 1 + d.pending - (d.pending + 1) - d.input.length = 0 := by omega
  rw [hzero]
  rfl

/-! ## Erasing visually -/

theorem le_foldl_min_iff {bound column : Nat} (targets : List Nat) :
    bound ≤ targets.foldl min column ↔ bound ≤ column ∧ ∀ target ∈ targets, bound ≤ target := by
  induction targets generalizing column with
  | nil => simp
  | cons target rest ih =>
    rw [List.foldl_cons, ih, Nat.le_min, List.forall_mem_cons, and_assoc]

theorem pendingByte_take (hline : d.pending ≤ d.input.length) (hpending : d'.pending ≤ d.pending)
    (hinput : d'.input = d.input.take (d.input.length - (d.pending - d'.pending)))
    (hindex : index < d'.pending) : d'.pendingByte index = d.pendingByte index := by
  have hlength : d'.input.length = d.input.length - (d.pending - d'.pending) := by
    rw [hinput, List.length_take]
    omega
  unfold Ldisc.pendingByte
  rw [if_pos (by omega), if_pos (by omega), hlength]
  have hplace : d.input.length - (d.pending - d'.pending) + index - d'.pending =
      d.input.length + index - d.pending := by omega
  rw [hplace, hinput, List.getD_eq_getElem?_getD, List.getD_eq_getElem?_getD,
    List.getElem?_take_of_lt (by omega)]

/-- `d'` is what erasing leaves: the cursor stands at the least of the columns that the erased
characters lead back to, and the last of these is the column of the line that is left. -/
structure Retreat (d : Ldisc) (targets : List Nat) (d' : Ldisc) : Prop where
  termios : d'.termios = d.termios
  number : d'.number = d.number
  erasePrinting : d'.erasePrinting = d.erasePrinting
  canonColumn : d'.canonColumn = d.canonColumn
  pending : d'.pending ≤ d.pending
  input : d'.input = d.input.take (d.input.length - (d.pending - d'.pending))
  column : d'.column = targets.foldl min d.column
  last : targets = [] ∧ d'.pending = d.pending ∨
    targets.getLast? = some (d'.replayColumn d'.pending)
  inside : ∀ target ∈ targets, ∃ count ≤ d.pending, target = d.replayColumn count

variable {targets : List Nat}

theorem Retreat.pendingByte (h : Retreat d targets d') (hline : d.pending ≤ d.input.length)
    (hindex : index < d'.pending) : d'.pendingByte index = d.pendingByte index :=
  pendingByte_take hline h.pending h.input hindex

theorem Retreat.replayColumn (h : Retreat d targets d') (hline : d.pending ≤ d.input.length)
    (hcount : count ≤ d'.pending) : d'.replayColumn count = d.replayColumn count :=
  replayColumn_congr h.termios h.canonColumn fun _ hindex => h.pendingByte hline (by omega)

theorem Retreat.line (h : Retreat d targets d')
    (hline : d.pending ≤ d.input.length) : d'.pending ≤ d'.input.length := by
  have hpending := h.pending
  rw [h.input, List.length_take]
  omega

theorem Retreat.refl (d : Ldisc) : Retreat d [] d where
  termios := rfl
  number := rfl
  erasePrinting := rfl
  canonColumn := rfl
  pending := Nat.le_refl _
  input := by rw [Nat.sub_self, Nat.sub_zero, List.take_length]
  column := rfl
  last := .inl ⟨rfl, rfl⟩
  inside _ h := nomatch h

theorem Retreat.trans {targets' : List Nat} {d'' : Ldisc} (h : Retreat d targets d')
    (h' : Retreat d' targets' d'') (hline : d.pending ≤ d.input.length) :
    Retreat d (targets ++ targets') d'' where
  termios := h'.termios.trans h.termios
  number := h'.number.trans h.number
  erasePrinting := h'.erasePrinting.trans h.erasePrinting
  canonColumn := h'.canonColumn.trans h.canonColumn
  pending := Nat.le_trans h'.pending h.pending
  input := by
    have hpending := h.pending
    have hpending' := h'.pending
    have hlength : d'.input.length = d.input.length - (d.pending - d'.pending) := by
      rw [h.input, List.length_take]
      omega
    rw [h'.input, hlength, h.input, List.take_take]
    congr 1
    omega
  column := by rw [h'.column, h.column, List.foldl_append]
  last := by
    rcases h'.last with ⟨rfl, hsame⟩ | hlast
    · rcases h.last with ⟨rfl, hsame'⟩ | hlast
      · exact .inl ⟨rfl, hsame.trans hsame'⟩
      · right
        rw [List.append_nil, hlast, h'.replayColumn (h.line hline) (Nat.le_refl _), hsame]
    · right
      rw [List.getLast?_append, hlast]
      rfl
  inside := by
    intro target htarget
    rcases List.mem_append.mp htarget with hfirst | hsecond
    · exact h.inside target hfirst
    · obtain ⟨count, hcount, rfl⟩ := h'.inside target hsecond
      exact ⟨count, Nat.le_trans hcount h.pending, h.replayColumn hline hcount⟩

theorem backUp_screen {target : Nat} {wasTab : Bool} (h : d.backUp target wasTab = some d') :
    ∃ output, d' = { d with output, column := min d.column target } := by
  have hroom := backUp_room (d := d) target wasTab
  split at hroom
  · obtain ⟨output, -, hup⟩ := hroom
    rw [hup] at h
    exact ⟨output, (Option.some.inj h).symm⟩
  · rw [hroom] at h
    cases h

theorem discardPending_retreat (hline : d.pending ≤ d.input.length) (count : Nat)
    (output : List Byte) : Retreat d [d.replayColumn (d.pending - count)]
      { d.discardPending count with
        output, column := min d.column (d.replayColumn (d.pending - count)) } := by
  generalize hd' : ({ d.discardPending count with
    output, column := min d.column (d.replayColumn (d.pending - count)) } : Ldisc) = d'
  have hpending : d'.pending = d.pending - count := by
    rw [← hd']
    show d.pending - min count d.pending = _
    omega
  have hinput : d'.input = d.input.take (d.input.length - (d.pending - d'.pending)) := by
    rw [hpending, ← hd']
    show d.input.take (d.input.length - min count d.pending) = _
    congr 1
    omega
  have hreplay : d'.replayColumn d'.pending = d.replayColumn (d.pending - count) := by
    rw [← hpending]
    exact replayColumn_congr (by rw [← hd']; rfl) (by rw [← hd']; rfl) fun _ hindex =>
      pendingByte_take hline (by omega) hinput hindex
  refine ⟨?_, ?_, ?_, ?_, by omega, hinput, ?_, .inr ?_, ?_⟩
  · rw [← hd']
    rfl
  · rw [← hd']
    rfl
  · rw [← hd']
    rfl
  · rw [← hd']
    rfl
  · rw [← hd']
    rfl
  · rw [hreplay]
    rfl
  · intro target htarget
    exact ⟨d.pending - count, Nat.sub_le _ _, List.mem_singleton.mp htarget⟩

theorem eraseLoop_retreat {kind : Erase} (fuel : Nat) (seenWord : Bool)
    (hundraws : d.undraws kind = true) (hline : d.pending ≤ d.input.length)
    (h : Ldisc.eraseLoop kind fuel seenWord d = some d') :
    Retreat d ((erasedFrom kind fuel seenWord d).map Prod.fst) d' := by
  induction fuel generalizing d seenWord with
  | zero =>
    obtain rfl := Option.some.inj h
    exact .refl d
  | succ fuel ih =>
    unfold Ldisc.eraseLoop at h
    unfold erasedFrom
    dsimp only at h ⊢
    by_cases hpending : d.pending = 0
    · rw [if_pos hpending] at h ⊢
      obtain rfl := Option.some.inj h
      exact .refl d
    rw [if_neg hpending] at h ⊢
    by_cases hstop : kind = .word ∧
        Ldisc.wordByte (d.pendingByte (d.pending - d.characterWidthBytes)) = false ∧ seenWord
    · rw [if_pos hstop] at h ⊢
      obtain rfl := Option.some.inj h
      exact .refl d
    rw [if_neg hstop] at h ⊢
    rw [eraseEcho_undraws (d := d.discardPending d.characterWidthBytes) hundraws] at h
    cases hup : (d.discardPending d.characterWidthBytes).backUp
        (d.replayColumn (d.pending - d.characterWidthBytes))
        (d.pendingByte (d.pending - d.characterWidthBytes) == 0x09) with
    | none =>
      rw [hup] at h
      cases h
    | some d₁ =>
      rw [hup] at h
      dsimp only at h
      obtain ⟨output, rfl⟩ := backUp_screen hup
      have hfirst := discardPending_retreat hline d.characterWidthBytes output
      rw [List.map_cons]
      by_cases hcharacter : kind = .character
      · rw [if_pos hcharacter] at h ⊢
        obtain rfl := Option.some.inj h
        exact hfirst
      · rw [if_neg hcharacter] at h ⊢
        have hrest := ih _ ((undraws_of_termios hfirst.termios).trans hundraws) (hfirst.line hline) h
        rw [erasedFrom_screen (d := d.discardPending d.characterWidthBytes)] at hrest
        exact hfirst.trans hrest hline

/-- The erase un-draws what it takes away. -/
def Ldisc.visual (d : Ldisc) (kind : Erase) : Bool := d.undraws kind && d.unravels kind

theorem erase_retreat {kind : Erase} (hvisual : d.visual kind = true)
    (hprinting : d.erasePrinting = false) (hline : d.pending ≤ d.input.length)
    (h : d.erase kind = some d') : Retreat d ((d.erased kind).map Prod.fst) d' := by
  rw [Ldisc.visual, Bool.and_eq_true] at hvisual
  unfold Ldisc.erase at h
  dsimp only at h
  by_cases hpending : d.pending = 0
  · rw [if_pos hpending] at h
    obtain rfl := Option.some.inj h
    rw [erased_empty hpending]
    exact .refl d
  have hecho : d.termios.lflag.any ECHO = true := by
    have hundraws := hvisual.1
    simp only [Ldisc.undraws, Bool.and_eq_true] at hundraws
    exact hundraws.1.1
  have hloop : ¬ (kind = .line ∧
      d.termios.lflag &&& (ECHOKE ||| ECHOE ||| ECHOK) ≠ ECHOKE ||| ECHOE ||| ECHOK) := by
    rintro ⟨hkill, hflags⟩
    have hunravels := hvisual.2
    simp only [Ldisc.unravels, Bool.or_eq_true, decide_eq_true_eq, beq_iff_eq] at hunravels
    exact hunravels.elim (fun h => h hkill) hflags
  rw [if_neg hpending, if_neg (by rw [hecho]; exact fun h => Bool.false_ne_true h.2.symm), if_neg hloop,
    Option.map_eq_some_iff] at h
  obtain ⟨d₁, hrun, hfinish⟩ := h
  have hretreat := eraseLoop_retreat d.pending false hvisual.1 hline hrun
  have hclosed : d₁.finishErasePrinting = d₁ := by
    unfold Ldisc.finishErasePrinting
    rw [if_neg (by rw [hretreat.erasePrinting, hprinting]; exact Bool.false_ne_true)]
  rw [hclosed, ite_self] at hfinish
  rw [← hfinish]
  exact hretreat

end Kinakaze.Terminal
