import Kinakaze.Terminal.Retreat

/-!
# Erasing stays inside the line

Two models of the cursor have to agree: the column that echoing moves, and the
column that `replayColumn` finds again from the stored bytes.
-/

namespace Kinakaze.Terminal

open Kinakaze.Library

variable {d d' : Ldisc} {byte : Byte}

/-! ## Keys -/

/-- What the keys do to a line: a byte typed, a byte typed after `VLNEXT`, an erase; or the other
end takes output. -/
inductive Stroke where
  | typed (byte : Byte)
  | quoted (byte : Byte)
  | erased (kind : Erase)
  | drained (size : Nat)

/-- `VLNEXT`, echoed as a caret under the cursor. -/
def Ldisc.quote (d : Ldisc) : Ldisc :=
  (({ d with literal := true } : Ldisc).finishErasePrinting.echoRaw 0x5e).echoRaw 0x08

def Ldisc.strike (d : Ldisc) : Stroke → Option Ldisc
  | .typed byte => some (d.finishErasePrinting.store byte)
  | .quoted byte => some (({ d.quote with literal := false } : Ldisc).store byte)
  | .erased kind => d.erase kind
  | .drained size => some (d.readOutput size).2

def Ldisc.struck (d : Ldisc) (stroke : Stroke) : Ldisc := (d.strike stroke).getD d

/-! ### The keys as received -/

variable {kind : Erase}

theorem receiveCanonical_erased (h : d.eraseOf byte = some kind) :
    d.receiveCanonical byte = d.strike (.erased kind) := by
  unfold Ldisc.eraseOf at h
  unfold Ldisc.receiveCanonical Ldisc.strike
  dsimp only
  split_ifs at h ⊢ <;> cases h <;> rfl

theorem receiveCanonical_quote (herase : d.eraseOf byte = none)
    (hecho : d.termios.lflag.any ECHO = true) (hiexten : d.termios.lflag.any IEXTEN = true)
    (hnext : d.termios.matches VLNEXT byte = true) : d.receiveCanonical byte = some d.quote := by
  unfold Ldisc.eraseOf at herase
  unfold Ldisc.receiveCanonical Ldisc.quote
  dsimp only
  rw [if_pos hecho]
  split_ifs at herase ⊢ with h₁ h₂ h₃ h₄
  · rfl
  all_goals exact absurd ⟨hiexten, hnext⟩ h₄

theorem receiveByte_quoted (hliteral : d.quote.literal = true) (byte : Byte) :
    d.quote.receiveByte byte = (d.strike (.quoted byte)).map fun d => (d, []) := by
  unfold Ldisc.receiveByte
  rw [if_pos hliteral]
  rfl

/-- A byte that is none of the editing characters, nor ends the line. -/
def Ldisc.plain (d : Ldisc) (byte : Byte) : Prop :=
  d.eraseOf byte = none ∧ byte ≠ 0x0a ∧
    ∀ slot ∈ [VLNEXT, VREPRINT, VEOF, VEOL, VEOL2], d.termios.matches slot byte = false

theorem receiveCanonical_typed (h : d.plain byte) :
    d.receiveCanonical byte = d.strike (.typed byte) := by
  obtain ⟨herase, hnewline, hmatches⟩ := h
  have hnext := hmatches VLNEXT (by simp)
  have hreprint := hmatches VREPRINT (by simp)
  have heof := hmatches VEOF (by simp)
  have heol := hmatches VEOL (by simp)
  have heol2 := hmatches VEOL2 (by simp)
  unfold Ldisc.eraseOf at herase
  split_ifs at herase with hcharacter hline hword
  unfold Ldisc.receiveCanonical Ldisc.strike
  dsimp only
  rw [if_neg hcharacter, if_neg hline, if_neg hword, if_neg (by simp [hnext]),
    if_neg (by simp [hreprint]), if_neg hnewline, if_neg (by simp [heof]),
    if_neg (by simp [heol, heol2])]

/-- The byte is neither translated nor a flow control or signal character, and comes to the
canonical input. -/
def Ldisc.Arrives (d : Ldisc) (byte : Byte) : Prop :=
  d.literal = false ∧ d.stopped = false ∧ d.translate byte = some byte ∧
    (d.termios.iflag.any IXON = true → ∀ slot ∈ [VSTART, VSTOP], d.termios.matches slot byte = false) ∧
    (d.termios.lflag.any ISIG = true → d.signalOf byte = none) ∧ d.termios.lflag.any ICANON = true

theorem receiveByte_arrives (h : d.Arrives byte) :
    d.receiveByte byte = (d.receiveCanonical byte).map fun d => (d, []) := by
  obtain ⟨hliteral, hstopped, htranslate, hflow, hsignal, hcanonical⟩ := h
  have hstop : ¬ (d.termios.iflag.any IXON = true ∧ d.termios.matches VSTOP byte = true) :=
    fun h => by simp [hflow h.1 VSTOP] at h
  have hstart : ¬ (d.termios.iflag.any IXON = true ∧ d.termios.matches VSTART byte = true) :=
    fun h => by simp [hflow h.1 VSTART] at h
  unfold Ldisc.receiveByte Ldisc.receiveText
  simp only [hliteral, Bool.false_eq_true, if_false, htranslate, hstop, hstart, hstopped, false_and,
    hcanonical, if_true]
  split
  · next signal hsome =>
    split_ifs at hsome with hisig
    rw [hsignal hisig] at hsome
    cases hsome
  · rfl

theorem echoRaw_literal (h : byte ≠ 0x0a ∧ byte ≠ 0x0d ∧ byte ≠ 0x09) :
    (d.echoRaw byte).literal = d.literal := by
  unfold Ldisc.echoRaw Ldisc.outputChar Ldisc.trackColumn
  split_ifs <;> first | rfl | exact absurd ‹_› h.1 | exact absurd ‹_› h.2.1 | exact absurd ‹_› h.2.2

theorem quote_literal (d : Ldisc) : d.quote.literal = true := by
  unfold Ldisc.quote Ldisc.finishErasePrinting
  rw [echoRaw_literal (by decide), echoRaw_literal (by decide)]
  split_ifs
  · rw [echoRaw_literal (by decide)]
  · rfl

variable {stroke : Stroke} {bytes : List Byte}

/-- The bytes that a key sends. -/
inductive Ldisc.Sends (d : Ldisc) : Stroke → List Byte → Prop
  | typed {byte : Byte} (harrives : d.Arrives byte) (hplain : d.plain byte) :
      Sends d (.typed byte) [byte]
  | quoted {byte next : Byte} (harrives : d.Arrives next) (herase : d.eraseOf next = none)
      (hecho : d.termios.lflag.any ECHO = true) (hiexten : d.termios.lflag.any IEXTEN = true)
      (hnext : d.termios.matches VLNEXT next = true) : Sends d (.quoted byte) [next, byte]
  | erased {byte : Byte} {kind : Erase} (harrives : d.Arrives byte)
      (herase : d.eraseOf byte = some kind) : Sends d (.erased kind) [byte]

theorem Ldisc.Sends.receive (h : d.Sends stroke bytes) (hstrike : d.strike stroke = some d')
    (rest : List Byte) : receiveBytes (bytes ++ rest) d = receiveBytes rest d' := by
  cases h with
  | typed harrives hplain =>
    simp [receiveBytes, receiveByte_arrives harrives, receiveCanonical_typed hplain, hstrike]
  | erased harrives herase =>
    simp [receiveBytes, receiveByte_arrives harrives, receiveCanonical_erased herase, hstrike]
  | quoted harrives herase hecho hiexten hnext =>
    simp [receiveBytes, receiveByte_arrives harrives, receiveByte_quoted (quote_literal d), hstrike,
      receiveCanonical_quote herase hecho hiexten hnext]

/-- The key sends the bytes, and is taken. -/
def Ldisc.Takes (d : Ldisc) (key : Stroke × List Byte) : Prop :=
  d.Sends key.1 key.2 ∧ (d.strike key.1).isSome

/-- The stroke has room on the screen, and a byte is not a newline. -/
def Ldisc.Allows (d : Ldisc) : Stroke → Prop
  | .typed byte => byte ≠ 0x0a ∧ TAB_WIDTH ≤ d.outputSpace
  | .quoted byte => byte ≠ 0x0a ∧ TAB_WIDTH + 2 ≤ d.outputSpace
  | .erased kind => d.visual kind = true ∧ d.RoomToErase kind
  | .drained _ => True

/-- A carriage return leaves the column. -/
def Ldisc.returnsInPlace (d : Ldisc) : Bool :=
  d.termios.oflag.any OPOST && d.termios.oflag.any OCRNL && !d.termios.oflag.any ONLRET

/-- Echoing the byte moves the cursor as replaying it does, and not left of the line. -/
def Ldisc.Replays (d : Ldisc) (start : Nat) (byte : Byte) : Prop :=
  (byte = 0x08 → d.termios.lflag.any ECHOCTL = false ∧ start ≤ d.column - 1) ∧
    (byte = 0x0d → d.termios.lflag.any ECHOCTL = true ∨ d.returnsInPlace = true ∨ d.column = 0)

/-- The last of the erased characters leads back furthest. -/
def Ldisc.Retraces (d : Ldisc) (kind : Erase) : Prop :=
  ∀ last ∈ ((d.erased kind).map Prod.fst).getLast?,
    last ≤ d.column ∧ ∀ target ∈ (d.erased kind).map Prod.fst, last ≤ target

/-- The keys whose effect on the screen `replayColumn` foresees. -/
def Ldisc.Foresees (start : Nat) (d : Ldisc) : Stroke → Prop
  | .typed byte => d.input.length < INPUT_LIMIT → d.Replays start byte
  | .quoted byte => d.input.length < INPUT_LIMIT → d.Replays start byte
  | .erased kind => d.Retraces kind
  | .drained _ => True

/-! ## The start of the line -/

/-- One erase after the other. -/
def Ldisc.eraseAll : List Erase → Ldisc → Option Ldisc
  | [], d => some d
  | kind :: rest, d => (d.erase kind).bind (eraseAll rest)

/-- The replay finds the column of the cursor, and whatever is erased visually from here, the cursor
stays right of the start of the line and is there when the line is empty. -/
structure LineOk (start : Nat) (d : Ldisc) : Prop where
  canonColumn : 0 < d.pending → d.canonColumn = start
  replayed : 0 < d.pending → d.replayColumn d.pending = d.column
  erased : ∀ kinds d', (∀ kind ∈ kinds, d.visual kind = true) → d.eraseAll kinds = some d' →
    start ≤ d'.column ∧ (d'.pending = 0 → d'.column = start)

/-- A line in the making. -/
structure Editing (d : Ldisc) : Prop where
  canonical : d.canonical = true
  echo : d.termios.lflag.any ECHO = true
  line : d.pending ≤ d.input.length
  erasePrinting : d.erasePrinting = false

/-- No part of the line reaches left of its start. -/
structure Confined (start : Nat) (d : Ldisc) : Prop where
  empty : d.pending = 0 → d.column = start
  column : start ≤ d.column
  canonColumn : 0 < d.pending → d.canonColumn = start
  parts : 0 < d.pending → ∀ count ≤ d.pending, start ≤ d.replayColumn count

theorem Retreat.editing {targets : List Nat} (h : Retreat d targets d') (hd : Editing d) :
    Editing d' where
  canonical := by
    unfold Ldisc.canonical
    rw [h.termios, h.number]
    exact hd.canonical
  echo := by
    rw [h.termios]
    exact hd.echo
  line := h.line hd.line
  erasePrinting := h.erasePrinting.trans hd.erasePrinting

variable {start : Nat}

theorem Confined.retreat {targets : List Nat} (hc : Confined start d) (hd : Editing d)
    (h : Retreat d targets d') (hempty : d.pending = 0 → targets = []) : Confined start d' := by
  have htargets : ∀ target ∈ targets, start ≤ target := by
    intro target htarget
    by_cases hpending : d.pending = 0
    · rw [hempty hpending] at htarget
      cases htarget
    · obtain ⟨count, hcount, rfl⟩ := h.inside target htarget
      exact hc.parts (Nat.pos_of_ne_zero hpending) count hcount
  have hbound := (le_foldl_min_iff targets).mpr ⟨hc.column, htargets⟩
  rw [← h.column] at hbound
  have hleast := (le_foldl_min_iff targets).mp (Nat.le_refl (targets.foldl min d.column))
  rw [← h.column] at hleast
  refine ⟨fun hzero => ?_, hbound, fun hpositive => ?_, fun hpositive count hcount => ?_⟩
  · rcases h.last with ⟨rfl, hsame⟩ | hlast
    · exact h.column.trans (hc.empty (hsame ▸ hzero))
    · -- the last character leads back to the start
      have hpositive : 0 < d.pending := by
        refine Nat.pos_of_ne_zero fun hpending => ?_
        rw [hempty hpending] at hlast
        cases hlast
      have hstart : d'.replayColumn d'.pending = start := by
        rw [hzero]
        exact h.canonColumn.trans (hc.canonColumn hpositive)
      have hle := hleast.2 _ (List.mem_of_getLast? hlast)
      omega
  · rw [h.canonColumn]
    exact hc.canonColumn (Nat.lt_of_lt_of_le hpositive h.pending)
  · rw [h.replayColumn hd.line hcount]
    exact hc.parts (Nat.lt_of_lt_of_le hpositive h.pending) count (Nat.le_trans hcount h.pending)

theorem Confined.eraseAll (kinds : List Erase) (hc : Confined start d) (hd : Editing d)
    (hvisual : ∀ kind ∈ kinds, d.visual kind = true)
    (h : d.eraseAll kinds = some d') : Confined start d' := by
  induction kinds generalizing d with
  | nil =>
    obtain rfl := Option.some.inj h
    exact hc
  | cons kind rest ih =>
    unfold Ldisc.eraseAll at h
    rw [Option.bind_eq_some_iff] at h
    obtain ⟨d₁, hfirst, hrest⟩ := h
    have hretreat := erase_retreat (hvisual kind List.mem_cons_self) hd.erasePrinting hd.line hfirst
    have hempty : d.pending = 0 → (d.erased kind).map Prod.fst = [] :=
      fun hpending => by rw [erased_empty hpending]; rfl
    refine ih (hc.retreat hd hretreat hempty) (hretreat.editing hd) (fun kind' hkind' => ?_) hrest
    have hsame := hvisual kind' (List.mem_cons_of_mem _ hkind')
    unfold Ldisc.visual Ldisc.undraws Ldisc.unravels at hsame ⊢
    rw [hretreat.termios]
    exact hsame

/-! ## Typing -/

theorem replays_iff (hstart : start ≤ d.column) :
    d.Replays start byte ↔ d.shown byte = d.replayByte d.column byte ∧ start ≤ d.shown byte := by
  unfold Ldisc.Replays Ldisc.shown Ldisc.replayByte
  by_cases htab : byte = 0x09
  · have hback : byte ≠ 0x08 := by
      rw [htab]
      decide
    have hreturn : byte ≠ 0x0d := by
      rw [htab]
      decide
    rw [if_pos htab, if_pos htab]
    exact ⟨fun _ => ⟨rfl, by omega⟩, fun _ => ⟨fun h => absurd h hback, fun h => absurd h hreturn⟩⟩
  rw [if_neg htab, if_neg htab]
  by_cases hback : byte = 0x08
  · have hcontrol : byte < 0x20 ∨ byte = 0x7f := by
      rw [hback]
      decide
    have hreturn : byte ≠ 0x0d := by
      rw [hback]
      decide
    rw [if_pos hcontrol, if_pos hback, if_pos hback]
    by_cases hctl : d.termios.lflag.any ECHOCTL = true
    · rw [if_pos hctl]
      refine ⟨fun h => ?_, fun h => by omega⟩
      have hoff := (h.1 hback).1
      rw [hctl] at hoff
      cases hoff
    · rw [if_neg hctl]
      exact ⟨fun h => ⟨rfl, (h.1 hback).2⟩,
        fun h => ⟨fun _ => ⟨eq_false_of_ne_true hctl, h.2⟩, fun h => absurd h hreturn⟩⟩
  rw [if_neg hback, if_neg hback]
  have hnoback {P : Prop} : (byte = 0x08 → P) := fun h => absurd h hback
  by_cases hcontrol : byte < 0x20 ∨ byte = 0x7f
  · rw [if_pos hcontrol, if_pos hcontrol]
    by_cases hctl : d.termios.lflag.any ECHOCTL = true
    · rw [if_pos hctl, if_pos hctl]
      exact ⟨fun _ => ⟨rfl, by omega⟩, fun _ => ⟨hnoback, fun _ => .inl hctl⟩⟩
    rw [if_neg hctl, if_neg hctl]
    by_cases hreturn : byte = 0x0d
    · rw [if_pos hreturn]
      have hplace : d.returnsInPlace = true ↔ d.termios.oflag.any OPOST ∧
          d.termios.oflag.any OCRNL ∧ d.termios.oflag.any ONLRET = false := by
        unfold Ldisc.returnsInPlace
        rw [Bool.and_eq_true, Bool.and_eq_true, Bool.not_eq_true', and_assoc]
      by_cases hkeeps : d.returnsInPlace = true
      · rw [if_pos (hplace.mp hkeeps)]
        exact ⟨fun _ => ⟨rfl, hstart⟩, fun _ => ⟨hnoback, fun _ => .inr (.inl hkeeps)⟩⟩
      rw [if_neg fun h => hkeeps (hplace.mpr h)]
      refine ⟨fun h => ?_, fun h => ⟨hnoback, fun _ => .inr (.inr h.1.symm)⟩⟩
      have hzero := ((h.2 hreturn).resolve_left hctl).resolve_left hkeeps
      exact ⟨hzero.symm, by omega⟩
    · rw [if_neg hreturn]
      exact ⟨fun _ => ⟨rfl, hstart⟩, fun _ => ⟨hnoback, fun h => absurd h hreturn⟩⟩
  · have hreturn : byte ≠ 0x0d := by
      rintro rfl
      exact hcontrol (by decide)
    rw [if_neg hcontrol, if_neg hcontrol]
    refine ⟨fun _ => ⟨rfl, ?_⟩, fun _ => ⟨hnoback, fun h => absurd h hreturn⟩⟩
    split_ifs
    · exact hstart
    · omega

theorem Typed.replayColumn (h : Typed d byte d') (hline : d.pending ≤ d.input.length)
    (hcanon : 0 < d.pending → d.canonColumn = start) (hcanon' : d'.canonColumn = start)
    {count : Nat} (hcount : count ≤ d.pending) :
    d'.replayColumn count = if d.pending = 0 then start else d.replayColumn count := by
  by_cases hpending : d.pending = 0
  · obtain rfl : count = 0 := by omega
    rw [if_pos hpending]
    exact hcanon'
  · rw [if_neg hpending]
    exact replayColumn_congr h.termios (hcanon'.trans (hcanon (Nat.pos_of_ne_zero hpending)).symm)
      fun _ hindex => h.pendingByte hline (by omega)

theorem Typed.replayColumn_last (h : Typed d byte d') (hline : d.pending ≤ d.input.length)
    (hempty : d.pending = 0 → d.column = start) (hcanon : 0 < d.pending → d.canonColumn = start)
    (hreplayed : 0 < d.pending → d.replayColumn d.pending = d.column)
    (hcanon' : d'.canonColumn = start) :
    d'.replayColumn d'.pending = d.replayByte d.column byte := by
  have hbefore : d'.replayColumn d.pending = d.column := by
    rw [h.replayColumn hline hcanon hcanon' (Nat.le_refl _)]
    split_ifs with hpending
    · exact (hempty hpending).symm
    · exact hreplayed (Nat.pos_of_ne_zero hpending)
  rw [h.pending, replayColumn_succ, hbefore, h.pendingByte_last]
  unfold Ldisc.replayByte
  rw [h.termios]

theorem LineOk.column (h : LineOk start d) : start ≤ d.column :=
  (h.erased [] d nofun rfl).1

/-- What erasing keeps, and the agreement. -/
structure Foreseen (start : Nat) (d : Ldisc) : Prop where
  editing : Editing d
  confined : Confined start d
  replayed : 0 < d.pending → d.replayColumn d.pending = d.column

theorem Foreseen.lineOk (h : Foreseen start d) : LineOk start d where
  canonColumn := h.confined.canonColumn
  replayed := h.replayed
  erased kinds _ hvisual hall :=
    have hconfined := h.confined.eraseAll kinds h.editing hvisual hall
    ⟨hconfined.column, hconfined.empty⟩

theorem Typed.editing (h : Typed d byte d') (hd : Editing d) : Editing d' where
  canonical := by
    unfold Ldisc.canonical
    rw [h.termios, h.number]
    exact hd.canonical
  echo := by
    rw [h.termios]
    exact hd.echo
  line := by
    have hline := hd.line
    rw [h.pending, h.input, List.length_append, List.length_singleton]
    omega
  erasePrinting := h.erasePrinting.trans hd.erasePrinting

theorem Typed.foreseen (h : Typed d byte d') (hd : Foreseen start d)
    (hreplays : d.Replays start byte) : Foreseen start d' := by
  obtain ⟨hagrees, hright⟩ := (replays_iff hd.confined.column).mp hreplays
  have hcanon' : d'.canonColumn = start := by
    rcases h.canonColumn with hsame | ⟨hzero, hedge⟩
    · rw [hsame]
      split_ifs with hpending
      · exact hd.confined.empty hpending
      · exact hd.confined.canonColumn (Nat.pos_of_ne_zero hpending)
    · omega
  have hlast := h.replayColumn_last hd.editing.line hd.confined.empty hd.confined.canonColumn
    hd.replayed hcanon'
  have hcolumn : d'.replayColumn d'.pending = d'.column := by
    rw [hlast, h.column, hagrees]
  have hpending := h.pending
  refine ⟨h.editing hd.editing, ⟨fun hzero => by omega, ?_, fun _ => hcanon', ?_⟩, fun _ => hcolumn⟩
  · rw [h.column]
    exact hright
  · intro _ count hcount
    by_cases hnew : count = d'.pending
    · rw [hnew, hcolumn, h.column]
      exact hright
    rw [h.replayColumn hd.editing.line hd.confined.canonColumn hcanon' (by omega)]
    split_ifs with hempty
    · exact Nat.le_refl _
    · exact hd.confined.parts (Nat.pos_of_ne_zero hempty) count (by omega)

theorem Typed.replays (h : Typed d byte d') (hline : d.pending ≤ d.input.length)
    (hcolumn : start ≤ d.column) (hempty : d.pending = 0 → d.column = start)
    (hcanon : 0 < d.pending → d.canonColumn = start)
    (hreplayed : 0 < d.pending → d.replayColumn d.pending = d.column) (hok' : LineOk start d') :
    d.Replays start byte := by
  have hpositive : 0 < d'.pending := by
    rw [h.pending]
    exact Nat.succ_pos _
  have hlast := h.replayColumn_last hline hempty hcanon hreplayed (hok'.canonColumn hpositive)
  rw [hok'.replayed hpositive, h.column] at hlast
  refine (replays_iff hcolumn).mpr ⟨hlast, ?_⟩
  rw [← h.column]
  exact hok'.column

theorem Retreat.foreseen (h : Retreat d ((d.erased kind).map Prod.fst) d') (hd : Foreseen start d)
    (hretraces : d.Retraces kind) : Foreseen start d' := by
  have hempty : d.pending = 0 → (d.erased kind).map Prod.fst = [] :=
    fun hpending => by rw [erased_empty hpending]; rfl
  refine ⟨h.editing hd.editing, hd.confined.retreat hd.editing h hempty, fun hpositive => ?_⟩
  rcases h.last with ⟨hnone, hsame⟩ | hlast
  · rw [h.replayColumn hd.editing.line (Nat.le_refl _), h.column, hnone, hsame]
    exact hd.replayed (hsame ▸ hpositive)
  obtain ⟨hcolumn, htargets⟩ := hretraces _ hlast
  have hleast := (le_foldl_min_iff ((d.erased kind).map Prod.fst)).mp
    (Nat.le_refl (((d.erased kind).map Prod.fst).foldl min d.column))
  rw [← h.column] at hleast
  have hge := (le_foldl_min_iff _).mpr ⟨hcolumn, htargets⟩
  rw [← h.column] at hge
  have hle := hleast.2 _ (List.mem_of_getLast? hlast)
  omega

theorem Retreat.retraces (h : Retreat d ((d.erased kind).map Prod.fst) d') (hok : LineOk start d)
    (hok' : LineOk start d') : d.Retraces kind := by
  intro last hlast
  rcases h.last with ⟨hnone, hsame⟩ | hlast'
  · rw [hnone] at hlast
    cases hlast
  rw [Option.mem_def, hlast'] at hlast
  obtain rfl := Option.some.inj hlast
  refine (le_foldl_min_iff _).mp ?_
  rw [← h.column]
  by_cases hpending : d'.pending = 0
  · have hpositive : 0 < d.pending := by
      refine Nat.pos_of_ne_zero fun hzero => ?_
      rw [erased_empty hzero] at hlast'
      cases hlast'
    have hstart : d'.replayColumn d'.pending = start := by
      rw [hpending]
      exact h.canonColumn.trans (hok.canonColumn hpositive)
    rw [hstart]
    exact hok'.column
  · exact Nat.le_of_eq (hok'.replayed (Nat.pos_of_ne_zero hpending))

/-! ## Runs of keys -/

theorem Foreseen.of_output (h : Foreseen start d) (output : List Byte)
    (literal : Bool) : Foreseen start { d with output, literal } where
  editing := { h.editing with }
  confined := { h.confined with }
  replayed := h.replayed

theorem trackColumn_erasePrinting (d : Ldisc) (byte : Byte) :
    (d.trackColumn byte).erasePrinting = d.erasePrinting := by
  unfold Ldisc.trackColumn
  split_ifs <;> rfl

theorem finishErasePrinting_ends (d : Ldisc) : d.finishErasePrinting.erasePrinting = false := by
  unfold Ldisc.finishErasePrinting
  split_ifs with hopen
  · have hchar : ∀ d : Ldisc, d.outputChar 0x2f =
        if d.outputSpace < 1 then (false, d) else (true, (d.trackColumn 0x2f).emit [0x2f]) :=
      fun _ => rfl
    unfold Ldisc.echoRaw
    rw [hchar]
    split_ifs <;> first | rfl | exact trackColumn_erasePrinting _ _
  · exact eq_false_of_ne_true hopen

theorem finishErasePrinting_closed (h : d.erasePrinting = false) : d.finishErasePrinting = d := by
  unfold Ldisc.finishErasePrinting
  rw [if_neg (by rw [h]; exact Bool.false_ne_true)]

theorem quote_output (hprinting : d.erasePrinting = false) (hspace : 2 ≤ d.outputSpace) :
    ({ d.quote with literal := false } : Ldisc) =
      { d with output := d.output ++ [0x5e, 0x08], literal := false } := by
  have hclosed := finishErasePrinting_closed (d := { d with literal := true }) hprinting
  have hspace₁ : ({ d with literal := true } : Ldisc).outputSpace = d.outputSpace := rfl
  unfold Ldisc.quote
  rw [hclosed, @echoRaw_emit _ 0x5e (by omega) (by decide) (by decide) (by decide),
    @echoRaw_emit _ 0x08 ?_ (by decide) (by decide) (by decide)]
  · simp [Ldisc.trackColumn, Ldisc.emit]
  · rw [outputSpace_emit, List.length_singleton]
    omega

theorem store_cases (hd : Editing d) (hspace : TAB_WIDTH ≤ d.outputSpace) (hnewline : byte ≠ 0x0a) :
    d.input.length < INPUT_LIMIT ∧ Typed d byte (d.store byte) ∨
      ¬ d.input.length < INPUT_LIMIT ∧ d.store byte = d := by
  by_cases hinput : d.input.length < INPUT_LIMIT
  · exact .inl ⟨hinput, store_typed hd.canonical hd.echo hinput hspace hnewline⟩
  · refine .inr ⟨hinput, ?_⟩
    unfold Ldisc.store
    rw [if_pos (Nat.not_lt.mp hinput)]

theorem struck_typed (hprinting : d.erasePrinting = false) (byte : Byte) :
    d.struck (.typed byte) = d.store byte := by
  show d.finishErasePrinting.store byte = _
  rw [finishErasePrinting_closed hprinting]

theorem struck_quoted (hprinting : d.erasePrinting = false) (hspace : 2 ≤ d.outputSpace)
    (byte : Byte) : d.struck (.quoted byte) =
      ({ d with output := d.output ++ [0x5e, 0x08], literal := false } : Ldisc).store byte := by
  show ({ d.quote with literal := false } : Ldisc).store byte = _
  rw [quote_output hprinting hspace]

theorem space_after_quote (hspace : TAB_WIDTH + 2 ≤ d.outputSpace) :
    TAB_WIDTH ≤ ({ d with output := d.output ++ [0x5e, 0x08], literal := false } :
      Ldisc).outputSpace := by
  unfold Ldisc.outputSpace at hspace ⊢
  rw [List.length_append]
  simp only [List.length_cons, List.length_nil]
  omega

theorem struck_erased {d' : Ldisc} (h : d.erase kind = some d') : d.struck (.erased kind) = d' := by
  show (d.erase kind).getD d = d'
  rw [h, Option.getD_some]

theorem struck_foreseen {stroke : Stroke} (hd : Foreseen start d) (hallowed : d.Allows stroke)
    (hforesees : d.Foresees start stroke) : Foreseen start (d.struck stroke) := by
  cases stroke with
  | typed byte =>
    rw [struck_typed hd.editing.erasePrinting]
    rcases store_cases hd.editing hallowed.2 hallowed.1 with ⟨hinput, htyped⟩ | ⟨-, hsame⟩
    · exact htyped.foreseen hd (hforesees hinput)
    · rw [hsame]
      exact hd
  | quoted byte =>
    have hspace : TAB_WIDTH + 2 ≤ d.outputSpace := hallowed.2
    have hd₁ := hd.of_output (d.output ++ [0x5e, 0x08]) false
    have hspace₁ := space_after_quote hspace
    rw [struck_quoted hd.editing.erasePrinting (by omega)]
    rcases store_cases hd₁.editing hspace₁ hallowed.1 with ⟨hinput, htyped⟩ | ⟨-, hsame⟩
    · exact htyped.foreseen hd₁ (hforesees hinput)
    · rw [hsame]
      exact hd₁
  | erased kind =>
    obtain ⟨d', herase⟩ := Option.isSome_iff_exists.mp (erase_returns_iff.mpr hallowed.2)
    rw [struck_erased herase]
    exact (erase_retreat hallowed.1 hd.editing.erasePrinting hd.editing.line herase).foreseen hd
      hforesees
  | drained size => exact hd.of_output (d.output.drop size) d.literal

theorem foresees_of_lineOk {stroke : Stroke} (hd : Foreseen start d) (hallowed : d.Allows stroke)
    (hok : LineOk start (d.struck stroke)) : d.Foresees start stroke := by
  cases stroke with
  | typed byte =>
    intro hinput
    rw [struck_typed hd.editing.erasePrinting] at hok
    exact (store_typed hd.editing.canonical hd.editing.echo hinput hallowed.2 hallowed.1).replays
      hd.editing.line hd.confined.column hd.confined.empty hd.confined.canonColumn hd.replayed hok
  | quoted byte =>
    intro hinput
    have hspace : TAB_WIDTH + 2 ≤ d.outputSpace := hallowed.2
    have hd₁ := hd.of_output (d.output ++ [0x5e, 0x08]) false
    have hspace₁ := space_after_quote hspace
    rw [struck_quoted hd.editing.erasePrinting (by omega)] at hok
    exact (store_typed hd₁.editing.canonical hd₁.editing.echo hinput hspace₁ hallowed.1).replays
      hd₁.editing.line hd₁.confined.column hd₁.confined.empty hd₁.confined.canonColumn
      hd₁.replayed hok
  | erased kind =>
    obtain ⟨d', herase⟩ := Option.isSome_iff_exists.mp (erase_returns_iff.mpr hallowed.2)
    rw [struck_erased herase] at hok
    exact (erase_retreat hallowed.1 hd.editing.erasePrinting hd.editing.line herase).retraces
      hd.lineOk hok
  | drained size => trivial

theorem lineOk_iff_foresees (strokes : List Stroke) (hd : Foreseen start d)
    (hallowed : EveryStep Ldisc.struck Ldisc.Allows d strokes) :
    EveryState Ldisc.struck (LineOk start) d strokes ↔
      EveryStep Ldisc.struck (Ldisc.Foresees start) d strokes := by
  induction strokes generalizing d with
  | nil => exact ⟨fun _ => trivial, fun _ => hd.lineOk⟩
  | cons stroke rest ih =>
    constructor
    · rintro ⟨-, hrest⟩
      have hforesees := foresees_of_lineOk hd hallowed.1 hrest.head
      exact ⟨hforesees, (ih (struck_foreseen hd hallowed.1 hforesees) hallowed.2).mp hrest⟩
    · rintro ⟨hforesees, hrest⟩
      exact ⟨hd.lineOk, (ih (struck_foreseen hd hallowed.1 hforesees) hallowed.2).mpr hrest⟩

/-- A line begun anywhere, after any output, and edited by keys for whose echo there is room.  In
every state the replay finds the cursor, and visual erases stay inside the line, just when each key
is one whose effect on the cursor the replay foresees. -/
theorem erases_inside_line (d : Ldisc) (hcanonical : d.canonical = true)
    (hecho : d.termios.lflag.any ECHO = true) (hpending : d.pending = 0) (strokes : List Stroke)
    (hallowed : EveryStep Ldisc.struck Ldisc.Allows d.finishErasePrinting strokes) :
    EveryState Ldisc.struck (LineOk d.finishErasePrinting.column) d.finishErasePrinting strokes ↔
      EveryStep Ldisc.struck (Ldisc.Foresees d.finishErasePrinting.column) d.finishErasePrinting
        strokes := by
  have hedits := finishErasePrinting_edits d
  have hpending' : d.finishErasePrinting.pending = 0 := by
    unfold Ldisc.finishErasePrinting
    split_ifs
    · exact (echoRaw_pending _ _).trans hpending
    · exact hpending
  refine lineOk_iff_foresees strokes ⟨⟨?_, ?_, ?_, finishErasePrinting_ends d⟩,
    ⟨fun _ => rfl, Nat.le_refl _, ?_, ?_⟩, ?_⟩ hallowed
  · rw [hedits.canonical]
    exact hcanonical
  · rw [hedits.termios]
    exact hecho
  · rw [hpending']
    exact Nat.zero_le _
  · omega
  · omega
  · omega

theorem retraces_one (target : Nat) (wasTab : Bool) (herased : d.erased kind = [(target, wasTab)])
    (hcolumn : target ≤ d.column) : d.Retraces kind := by
  intro last hlast
  rw [herased] at hlast ⊢
  obtain rfl := Option.some.inj hlast
  exact ⟨hcolumn, fun _ htarget => Nat.le_of_eq (List.mem_singleton.mp htarget).symm⟩

/-- After a prompt of one column a tab and a letter are typed, and both erased. -/
theorem erases_inside_line_tab :
    EveryState Ldisc.struck (LineOk 1) { Ldisc.new defaultTermios with column := 1 }
        [.typed 0x09, .typed 0x61, .erased .character, .erased .line] ∧
      (run Ldisc.struck { Ldisc.new defaultTermios with column := 1 }
        [.typed 0x09, .typed 0x61, .erased .character, .erased .line]).column = 1 := by
  have hallowed : EveryStep Ldisc.struck Ldisc.Allows
      ({ Ldisc.new defaultTermios with column := 1 } : Ldisc).finishErasePrinting
      [.typed 0x09, .typed 0x61, .erased .character, .erased .line] := by
    refine ⟨⟨by decide, by decide⟩, ⟨by decide, by decide⟩, ⟨by decide, fun _ _ => ?_⟩,
      ⟨by decide, fun _ _ => ?_⟩, trivial⟩
    · decide
    · decide
  refine ⟨(erases_inside_line { Ldisc.new defaultTermios with column := 1 } (by decide) (by decide)
    rfl _ hallowed).mpr ⟨fun _ => ⟨?_, ?_⟩, fun _ => ⟨?_, ?_⟩, ?_, ?_, trivial⟩, by decide⟩
  · decide
  · decide
  · decide
  · decide
  · exact retraces_one 8 false (by decide) (by decide)
  · exact retraces_one 1 true (by decide) (by decide)

/-- The prompt takes one column; a backspace and a letter are typed, and the letter erased: the
cursor goes back over the prompt. -/
theorem erase_eats_prompt : (run Ldisc.advance (some (.new defaultTermios))
        [.writeOutput [0x24], .receive [0x08, 0x61], .receive [0x7f]]).map
      (fun d => (d.canonColumn, d.pending, d.column)) = some (1, 1, 0) := by
  decide +kernel

end Kinakaze.Terminal
