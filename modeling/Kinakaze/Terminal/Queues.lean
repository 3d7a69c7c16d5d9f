import Kinakaze.Terminal.Ldisc
import Mathlib.Data.List.Forall2

/-!
# Queue accounting

The bytes of the input queue are counted twice: by the queue itself, and by the
lengths of the complete lines with the length of the line under edit.
-/

namespace Kinakaze.Terminal

variable {d d' d'' : Ldisc} {byte : Byte}

/-- The queue holds the complete lines and the line under edit, nothing else. -/
def Ldisc.Accounts (d : Ldisc) : Prop := d.input.length = d.lines.sum + d.pending

/-- Neither queue is over its capacity. -/
structure Ldisc.Limits (d : Ldisc) : Prop where
  input : d.input.length ≤ INPUT_LIMIT
  output : d.output.length ≤ OUTPUT_LIMIT

/-- Receiving keeps the mode, the capacities and the accounting, and queues what
arrived behind what was there, some of which it may drop. -/
structure Edits (arrivals : List Byte) (d d' : Ldisc) : Prop where
  termios : d'.termios = d.termios
  number : d'.number = d.number
  limits : d.Limits → d'.Limits
  accounts : d.canonical = true → d.Accounts → d'.Accounts
  input : d'.input.Sublist (d.input ++ arrivals)

theorem Edits.canonical {arrivals : List Byte} (h : Edits arrivals d d') :
    d'.canonical = d.canonical := by
  simp only [Ldisc.canonical, h.termios, h.number]

theorem Edits.refl (d : Ldisc) : Edits [] d d :=
  ⟨rfl, rfl, id, fun _ h => h, by simp⟩

variable {xs bytes : List Byte}

theorem Edits.trans {ys : List Byte} (h : Edits xs d d') (h' : Edits ys d' d'') :
    Edits (xs ++ ys) d d'' where
  termios := h'.termios.trans h.termios
  number := h'.number.trans h.number
  limits hd := h'.limits (h.limits hd)
  accounts hcanonical hd := h'.accounts (h.canonical.trans hcanonical) (h.accounts hcanonical hd)
  input := by
    rw [← List.append_assoc]
    exact h'.input.trans (h.input.append_right ys)

theorem Edits.arrive (h : Edits [] d d') : Edits xs d d' :=
  { h with input := h.input.trans (by simp) }

theorem Edits.thenQueues (h : Edits [] d d') (h' : Edits xs d' d'') : Edits xs d d'' := h.trans h'

theorem Edits.thenEchoes (h : Edits xs d d') (h' : Edits [] d' d'') : Edits xs d d'' := by
  have htrans := h.trans h'
  rwa [List.append_nil] at htrans

/-! ## Output -/

theorem Edits.of_screen {output : List Byte} {column canonColumn : Nat}
    {stopped throttled literal erasePrinting : Bool}
    (houtput : d.output.length ≤ OUTPUT_LIMIT → output.length ≤ OUTPUT_LIMIT) :
    Edits [] d { d with output, column, canonColumn, stopped, throttled, literal, erasePrinting } :=
  ⟨rfl, rfl, fun h => ⟨h.input, houtput h.output⟩, fun _ h => h, by simp⟩

section

variable (d)
include d

theorem trackColumn_edits (byte : Byte) : Edits [] d (d.trackColumn byte) := by
  unfold Ldisc.trackColumn
  split_ifs
  all_goals exact .of_screen id

theorem trackColumn_output (byte : Byte) : (d.trackColumn byte).output = d.output := by
  unfold Ldisc.trackColumn
  split_ifs <;> rfl

theorem emit_edits (hspace : bytes.length ≤ d.outputSpace) : Edits [] d (d.emit bytes) := by
  refine .of_screen fun h => ?_
  unfold Ldisc.outputSpace at hspace
  rw [List.length_append]
  omega

theorem trackColumn_emit_edits (byte : Byte) (hspace : 1 ≤ d.outputSpace) :
    Edits [] d ((d.trackColumn byte).emit [byte]) := by
  refine (trackColumn_edits d byte).thenEchoes (emit_edits _ ?_)
  rw [Ldisc.outputSpace, trackColumn_output]
  exact hspace

theorem outputNewline_edits : Edits [] d d.outputNewline.2 := by
  have hscreen : ∀ column, Edits [] d { d with column } := fun _ => .of_screen id
  unfold Ldisc.outputNewline
  extract_lets oflag d₁
  have hd₁ : Edits [] d d₁ := by
    show Edits [] d (if _ then _ else _)
    split_ifs
    · exact hscreen 0
    · exact .refl d
  refine hd₁.thenEchoes ?_
  split_ifs with honlcr hspace hspace
  · exact .refl d₁
  · refine Edits.thenEchoes (.of_screen id) (emit_edits _ ?_)
    exact Nat.not_lt.mp hspace
  · exact .refl d₁
  · refine Edits.thenEchoes (.of_screen id) (emit_edits _ ?_)
    exact Nat.not_lt.mp hspace

theorem outputReturn_edits : Edits [] d d.outputReturn.2 := by
  unfold Ldisc.outputReturn
  dsimp only
  split_ifs with hnocr hspace hocrnl honlret
  · exact .refl d
  · exact .refl d
  · exact Edits.thenEchoes (.of_screen id) (emit_edits _ (Nat.not_lt.mp hspace))
  · exact emit_edits d (Nat.not_lt.mp hspace)
  · exact Edits.thenEchoes (.of_screen id) (emit_edits _ (Nat.not_lt.mp hspace))

theorem outputTab_edits : Edits [] d d.outputTab.2 := by
  unfold Ldisc.outputTab
  dsimp only
  split_ifs with hxtabs hspace hspace
  · exact .refl d
  · refine Edits.thenEchoes (.of_screen id) (emit_edits _ ?_)
    rw [List.length_replicate]
    exact Nat.not_lt.mp hspace
  · exact .refl d
  · exact Edits.thenEchoes (.of_screen id) (emit_edits _ (Nat.not_lt.mp hspace))

theorem outputChar_edits (byte : Byte) : Edits [] d (d.outputChar byte).2 := by
  unfold Ldisc.outputChar
  split_ifs with hnewline hreturn htab hspace
  · exact outputNewline_edits d
  · exact outputReturn_edits d
  · exact outputTab_edits d
  · exact .refl d
  · exact trackColumn_emit_edits d byte (Nat.not_lt.mp hspace)

end

theorem outputChars_edits (bytes : List Byte) (d : Ldisc) :
    Edits [] d (Ldisc.outputChars bytes d).2 := by
  induction bytes generalizing d with
  | nil => exact .refl d
  | cons byte rest ih =>
    have hbyte := outputChar_edits d byte
    rw [Ldisc.outputChars]
    split
    · next hstep =>
      rw [hstep] at hbyte
      exact hbyte
    · next hstep =>
      rw [hstep] at hbyte
      exact hbyte.thenEchoes (ih _)

theorem emitAll_edits (bytes : List Byte) (d : Ldisc) (hspace : bytes.length ≤ d.outputSpace) :
    Edits [] d (bytes.foldl (fun d byte => (d.trackColumn byte).emit [byte]) d) := by
  induction bytes generalizing d with
  | nil => exact .refl d
  | cons byte rest ih =>
    rw [List.length_cons] at hspace
    refine (trackColumn_emit_edits d byte (by omega)).thenEchoes (ih _ ?_)
    simp only [Ldisc.outputSpace, Ldisc.emit, trackColumn_output, List.length_append,
      List.length_singleton] at hspace ⊢
    omega

section

variable (d)
include d

theorem writeOutput_edits (bytes : List Byte) : Edits [] d (d.writeOutput bytes).2 := by
  unfold Ldisc.writeOutput
  split_ifs
  · refine emitAll_edits _ d ?_
    rw [List.length_take]
    omega
  · exact outputChars_edits bytes d

theorem echoRaw_edits (byte : Byte) : Edits [] d (d.echoRaw byte) := by
  unfold Ldisc.echoRaw
  split_ifs with hopost hspace
  · exact outputChar_edits d byte
  · exact .refl d
  · exact trackColumn_emit_edits d byte (by omega)

theorem echoChar_edits (byte : Byte) : Edits [] d (d.echoChar byte) := by
  unfold Ldisc.echoChar
  dsimp only
  split_ifs
  · exact (echoRaw_edits d _).thenEchoes (echoRaw_edits _ _)
  · exact echoRaw_edits d byte

theorem emitRaw_edits (byte : Byte) : Edits [] d (d.emitRaw byte) := by
  unfold Ldisc.emitRaw
  split_ifs with hspace
  · exact .refl d
  · exact emit_edits d (Nat.one_le_iff_ne_zero.mpr hspace)

theorem finishErasePrinting_edits : Edits [] d d.finishErasePrinting := by
  unfold Ldisc.finishErasePrinting
  split_ifs
  · exact Edits.thenEchoes (.of_screen id) (echoRaw_edits _ _)
  · exact .refl d

theorem applyThrottle_edits : Edits [] d d.applyThrottle := by
  unfold Ldisc.applyThrottle
  split_ifs
  · exact .refl d
  · exact (emitRaw_edits d _).thenEchoes (.of_screen id)
  · exact .refl d

theorem releaseThrottle_edits : Edits [] d d.releaseThrottle := by
  unfold Ldisc.releaseThrottle
  split_ifs
  · exact .refl d
  · exact (emitRaw_edits d _).thenEchoes (.of_screen id)
  · exact .of_screen id
  · exact .refl d

/-! ## The line under edit -/

theorem flush_edits (queue : Queue) : Edits [] d (d.flush queue) := by
  have hinput : Edits [] d { d with input := [], lines := [], pending := 0, literal := false } :=
    ⟨rfl, rfl, fun h => ⟨Nat.zero_le _, h.output⟩, fun _ _ => rfl, List.nil_sublist _⟩
  have houtput : ∀ d : Ldisc, Edits [] d { d with output := [] } :=
    fun d => .of_screen fun _ => Nat.zero_le _
  unfold Ldisc.flush
  split_ifs
  · exact (hinput.thenEchoes (releaseThrottle_edits _)).thenEchoes (houtput _)
  · exact hinput.thenEchoes (releaseThrottle_edits _)
  · exact houtput d
  · exact .refl d

theorem queue_edits (byte : Byte) (hroom : d.input.length < INPUT_LIMIT) :
    Edits [byte] d (if d.canonical then
      { d with input := d.input ++ [byte], pending := d.pending + 1 }
    else { d with input := d.input ++ [byte] }) := by
  split_ifs with hcanonical
  · refine ⟨rfl, rfl, fun h => ⟨?_, h.output⟩, fun _ h => ?_, by simp⟩
    · rw [List.length_append, List.length_singleton]
      exact hroom
    · show (d.input ++ [byte]).length = d.lines.sum + (d.pending + 1)
      rw [List.length_append, List.length_singleton, h]
      omega
  · refine ⟨rfl, rfl, fun h => ⟨?_, h.output⟩, fun hmode => absurd hmode hcanonical, by simp⟩
    rw [List.length_append, List.length_singleton]
    exact hroom

theorem store_edits (byte : Byte) : Edits [byte] d (d.store byte) := by
  unfold Ldisc.store
  by_cases hfull : d.input.length ≥ INPUT_LIMIT
  · rw [if_pos hfull]
    exact (Edits.refl d).arrive
  rw [if_neg hfull]
  extract_lets d₁ d₂ d₃
  have hd₁ : Edits [] d d₁ := by
    show Edits [] d (if _ then _ else _)
    split_ifs
    · exact .of_screen id
    · exact .refl d
  have hd₂ : Edits [] d₁ d₂ := by
    show Edits [] d₁ (if _ then _ else _)
    split_ifs
    · exact echoChar_edits d₁ byte
    · exact .refl d₁
  have hd := hd₁.thenEchoes hd₂
  have hroom := hd.input.length_le
  rw [List.append_nil] at hroom
  exact hd.thenQueues (queue_edits d₂ byte (by omega))

theorem commit_edits (byte : Byte) : Edits [byte] d (d.commit (some byte)) := by
  have hline : ∀ d : Ldisc, Edits [] d
      { d with lines := d.lines ++ [d.pending], pending := 0, canonColumn := d.column } := by
    intro d
    refine ⟨rfl, rfl, fun h => ⟨h.input, h.output⟩, fun _ h => ?_, by simp⟩
    show d.input.length = (d.lines ++ [d.pending]).sum + 0
    rw [h, List.sum_append, List.sum_singleton, Nat.add_zero]
  unfold Ldisc.commit
  dsimp only
  split_ifs with hroom
  · refine Edits.thenEchoes ?_ (hline _)
    refine ⟨rfl, rfl, fun h => ⟨?_, h.output⟩, fun _ h => ?_, by simp⟩
    · rw [List.length_append, List.length_singleton]
      exact hroom
    · show (d.input ++ [byte]).length = d.lines.sum + (d.pending + 1)
      rw [List.length_append, List.length_singleton, h]
      omega
  · exact (hline d).arrive

theorem commit_none_edits : Edits [] d (d.commit none) := by
  refine ⟨rfl, rfl, fun h => ⟨h.input, h.output⟩, fun _ h => ?_, by simp [Ldisc.commit]⟩
  show d.input.length = (d.lines ++ [d.pending]).sum + 0
  rw [h, List.sum_append, List.sum_singleton, Nat.add_zero]

theorem discardPending_edits (count : Nat) : Edits [] d (d.discardPending count) := by
  refine ⟨rfl, rfl, fun h => ⟨?_, h.output⟩, fun _ h => ?_, ?_⟩
  · exact Nat.le_trans (List.length_take_le' _ _) h.input
  · have haccounts : d.input.length = d.lines.sum + d.pending := h
    show (d.input.take (d.input.length - min count d.pending)).length =
      d.lines.sum + (d.pending - min count d.pending)
    rw [List.length_take]
    omega
  · rw [List.append_nil]
    exact List.take_sublist _ _

end

/-! ## Erasing -/

/-! ### The loop that backs the cursor up -/

theorem echoRaw_plain (byte : Byte) (h : byte = 0x08 ∨ byte = 0x20) :
    d.echoRaw byte = if d.outputSpace = 0 then d else (d.trackColumn byte).emit [byte] := by
  have hother : byte ≠ 0x0a ∧ byte ≠ 0x0d ∧ byte ≠ 0x09 := by
    rcases h with rfl | rfl <;> decide
  unfold Ldisc.echoRaw Ldisc.outputChar
  rw [if_neg hother.1, if_neg hother.2.1, if_neg hother.2.2]
  split_ifs <;> first | rfl | omega

theorem outputSpace_emit (byte : Byte) (bytes : List Byte) :
    ((d.trackColumn byte).emit bytes).outputSpace = d.outputSpace - bytes.length := by
  have houtput : (d.trackColumn byte).output = d.output := by
    unfold Ldisc.trackColumn
    split_ifs <;> rfl
  unfold Ldisc.outputSpace
  simp only [Ldisc.emit, houtput, List.length_append]
  omega

theorem column_backspace : ((d.trackColumn 0x08).emit [0x08]).column = d.column - 1 := by
  simp [Ldisc.trackColumn, Ldisc.emit]

theorem column_space : ((d.trackColumn 0x20).emit [0x20]).column = d.column + 1 := by
  simp [Ldisc.trackColumn, Ldisc.emit]

/-- One turn of `eraseToColumn`. -/
def backOver (wasTab : Bool) (d : Ldisc) : Ldisc :=
  if wasTab then d.echoRaw 0x08 else ((d.echoRaw 0x08).echoRaw 0x20).echoRaw 0x08

theorem backOver_full (wasTab : Bool) (h : d.outputSpace = 0) : backOver wasTab d = d := by
  unfold backOver
  simp only [echoRaw_plain 0x08 (Or.inl rfl), echoRaw_plain 0x20 (Or.inr rfl), h, if_true, ite_self]

theorem backOver_cases (wasTab : Bool) (hcolumn : 0 < d.column) :
    (backOver wasTab d).column < d.column ∨
      (backOver wasTab d).column = d.column ∧ (backOver wasTab d).outputSpace = 0 := by
  by_cases hfull : d.outputSpace = 0
  · right
    rw [backOver_full wasTab hfull]
    exact ⟨rfl, hfull⟩
  have hback : d.echoRaw 0x08 = (d.trackColumn 0x08).emit [0x08] := by
    rw [echoRaw_plain 0x08 (Or.inl rfl), if_neg hfull]
  have hcolumn₁ : (d.echoRaw 0x08).column = d.column - 1 := by
    rw [hback]
    exact column_backspace
  have hspace₁ : (d.echoRaw 0x08).outputSpace = d.outputSpace - 1 := by
    rw [hback]
    exact outputSpace_emit _ _
  unfold backOver
  cases wasTab with
  | true =>
    left
    simp only [if_true]
    omega
  | false =>
    simp only [Bool.false_eq_true, if_false]
    generalize d.echoRaw 0x08 = d₁ at hcolumn₁ hspace₁ ⊢
    by_cases hfull₁ : d₁.outputSpace = 0
    · left
      rw [echoRaw_plain 0x20 (Or.inr rfl), if_pos hfull₁, echoRaw_plain 0x08 (Or.inl rfl),
        if_pos hfull₁]
      omega
    have hcolumn₂ : (d₁.echoRaw 0x20).column = d₁.column + 1 := by
      rw [echoRaw_plain 0x20 (Or.inr rfl), if_neg hfull₁]
      exact column_space
    have hspace₂ : (d₁.echoRaw 0x20).outputSpace = d₁.outputSpace - 1 := by
      rw [echoRaw_plain 0x20 (Or.inr rfl), if_neg hfull₁]
      exact outputSpace_emit _ _
    generalize d₁.echoRaw 0x20 = d₂ at hcolumn₂ hspace₂ ⊢
    rw [echoRaw_plain 0x08 (Or.inl rfl)]
    by_cases hfull₂ : d₂.outputSpace = 0
    · right
      rw [if_pos hfull₂]
      exact ⟨by omega, hfull₂⟩
    · left
      rw [if_neg hfull₂, column_backspace]
      omega

variable {target fuel : Nat} {wasTab : Bool}

theorem eraseToColumn_done (fuel : Nat)
    (h : ¬ target < d.column) : d.eraseToColumn target wasTab fuel = some d := by
  unfold Ldisc.eraseToColumn
  rw [if_neg h]

theorem eraseToColumn_succ (target : Nat) (wasTab : Bool) (fuel : Nat)
    (h : target < d.column) : d.eraseToColumn target wasTab (fuel + 1) =
      (backOver wasTab d).eraseToColumn target wasTab fuel := by
  rw [Ldisc.eraseToColumn, if_pos h]
  rfl

theorem eraseToColumn_full (fuel : Nat) (hspace : d.outputSpace = 0)
    (h : target < d.column) : d.eraseToColumn target wasTab fuel = none := by
  induction fuel with
  | zero => rw [Ldisc.eraseToColumn, if_pos h]
  | succ fuel ih => rw [eraseToColumn_succ target wasTab fuel h, backOver_full wasTab hspace, ih]

theorem eraseToColumn_enough {more : Nat} (h : d.eraseToColumn target wasTab fuel = some d')
    (hmore : d.column - target ≤ more) : d.eraseToColumn target wasTab more = some d' := by
  induction fuel generalizing d more with
  | zero =>
    have hdone : ¬ target < d.column := by
      intro hcolumn
      rw [Ldisc.eraseToColumn, if_pos hcolumn] at h
      cases h
    rw [eraseToColumn_done _ hdone] at h ⊢
    exact h
  | succ fuel ih =>
    by_cases hcolumn : target < d.column
    · rw [eraseToColumn_succ target wasTab fuel hcolumn] at h
      rcases backOver_cases wasTab (Nat.zero_lt_of_lt hcolumn) with hless | ⟨hsame, hspace⟩
      · obtain ⟨more, rfl⟩ : ∃ n, more = n + 1 := ⟨more - 1, by omega⟩
        rw [eraseToColumn_succ target wasTab more hcolumn]
        exact ih h (by omega)
      · rw [eraseToColumn_full fuel hspace (by omega)] at h
        cases h
    · rw [eraseToColumn_done _ hcolumn] at h ⊢
      exact h

theorem backUp_eq_none_iff :
    d.backUp target wasTab = none ↔ ∀ fuel, d.eraseToColumn target wasTab fuel = none := by
  constructor
  · intro hnone fuel
    cases hfuel : d.eraseToColumn target wasTab fuel with
    | none => rfl
    | some d' =>
      have henough := eraseToColumn_enough hfuel (Nat.le_refl _)
      rw [← Ldisc.backUp, hnone] at henough
      cases henough
  · exact fun hall => hall _

theorem eraseToColumn_edits
    (h : Ldisc.eraseToColumn target wasTab fuel d = some d') : Edits [] d d' := by
  induction fuel generalizing d with
  | zero =>
    unfold Ldisc.eraseToColumn at h
    split_ifs at h
    cases h
    exact .refl _
  | succ fuel ih =>
    unfold Ldisc.eraseToColumn at h
    split_ifs at h
    · exact (echoRaw_edits d _).thenEchoes (ih h)
    · refine Edits.thenEchoes ?_ (ih h)
      exact ((echoRaw_edits d _).thenEchoes (echoRaw_edits _ _)).thenEchoes (echoRaw_edits _ _)
    · cases h
      exact .refl _

variable {kind : Erase}

theorem eraseEcho_edits {targetColumn : Nat}
    (h : d.eraseEcho kind byte targetColumn = some d') : Edits [] d d' := by
  unfold Ldisc.eraseEcho at h
  dsimp only at h
  split_ifs at h
  · cases h
    exact .refl _
  · cases h
    exact echoChar_edits d byte
  · cases h
    refine Edits.thenEchoes ?_ (echoChar_edits _ byte)
    exact (echoRaw_edits d _).thenEchoes (.of_screen id)
  · cases h
    exact echoChar_edits d _
  · exact eraseToColumn_edits h

theorem eraseLoop_edits {seenWord : Bool}
    (h : Ldisc.eraseLoop kind fuel seenWord d = some d') : Edits [] d d' := by
  induction fuel generalizing d seenWord with
  | zero =>
    cases h
    exact .refl _
  | succ fuel ih =>
    unfold Ldisc.eraseLoop at h
    dsimp only at h
    split_ifs at h
    · cases h
      exact .refl _
    · cases h
      exact .refl _
    · split at h
      · cases h
      · next hecho =>
        cases h
        exact (discardPending_edits d _).thenEchoes (eraseEcho_edits hecho)
    · split at h
      · cases h
      · next hecho =>
        exact ((discardPending_edits d _).thenEchoes (eraseEcho_edits hecho)).thenEchoes (ih h)

theorem erase_edits (h : d.erase kind = some d') : Edits [] d d' := by
  have hkill : ∀ d : Ldisc, Edits [] d
      ((d.discardPending d.pending).finishErasePrinting.echoChar d.termios.cc[VKILL]) :=
    fun d => ((discardPending_edits d _).thenEchoes (finishErasePrinting_edits _)).thenEchoes
      (echoChar_edits _ _)
  unfold Ldisc.erase at h
  dsimp only at h
  split_ifs at h
  · cases h
    exact .refl _
  · cases h
    exact discardPending_edits d _
  · cases h
    exact (hkill d).thenEchoes (echoRaw_edits _ _)
  · cases h
    exact hkill d
  · rw [Option.map_eq_some_iff] at h
    obtain ⟨d₁, hloop, rfl⟩ := h
    split_ifs
    · exact (eraseLoop_edits hloop).thenEchoes (finishErasePrinting_edits d₁)
    · exact eraseLoop_edits hloop

theorem echoAll_edits (bytes : List Byte) (d : Ldisc) :
    Edits [] d (bytes.foldl Ldisc.echoChar d) := by
  induction bytes generalizing d with
  | nil => exact .refl d
  | cons byte rest ih => exact (echoChar_edits d byte).thenEchoes (ih _)

theorem reprint_edits (d : Ldisc) : Edits [] d d.reprint := by
  have hstart : Edits [] d ((d.finishErasePrinting.echoChar d.termios.cc[VREPRINT]).echoRaw 0x0a) :=
    ((finishErasePrinting_edits d).thenEchoes (echoChar_edits _ _)).thenEchoes (echoRaw_edits _ _)
  exact (hstart.thenEchoes (.of_screen id)).thenEchoes (echoAll_edits _ _)

/-! ## Receiving -/

theorem signalChar_edits (d : Ldisc) (byte : Byte) : Edits [] d (d.signalChar byte) := by
  unfold Ldisc.signalChar
  dsimp only
  split_ifs
  · exact Edits.thenEchoes (.of_screen id) (echoChar_edits _ _)
  · exact .of_screen id
  · exact ((flush_edits d .both).thenEchoes (.of_screen id)).thenEchoes (echoChar_edits _ _)
  · exact (flush_edits d .both).thenEchoes (.of_screen id)

theorem receiveCanonical_edits (h : d.receiveCanonical byte = some d') : Edits [byte] d d' := by
  have hfinish := finishErasePrinting_edits d
  unfold Ldisc.receiveCanonical at h
  dsimp only at h
  by_cases herase : d.termios.matches VERASE byte = true
  · rw [if_pos herase] at h
    exact (erase_edits h).arrive
  rw [if_neg herase] at h
  by_cases hkill : d.termios.matches VKILL byte = true
  · rw [if_pos hkill] at h
    exact (erase_edits h).arrive
  rw [if_neg hkill] at h
  split_ifs at h
  · exact (erase_edits h).arrive
  · cases h
    refine Edits.arrive ?_
    refine Edits.thenEchoes ?_ (echoRaw_edits _ _)
    refine Edits.thenEchoes ?_ (echoRaw_edits _ _)
    exact Edits.thenEchoes (.of_screen id) (finishErasePrinting_edits _)
  · cases h
    exact Edits.arrive (.of_screen id)
  · cases h
    exact (reprint_edits d).arrive
  · cases h
    rename_i hnewline _
    subst hnewline
    exact (hfinish.thenEchoes (echoRaw_edits _ _)).thenQueues (commit_edits _ _)
  · cases h
    rename_i hnewline _
    subst hnewline
    exact hfinish.thenQueues (commit_edits _ _)
  · cases h
    exact (hfinish.thenEchoes (commit_none_edits _)).arrive
  · cases h
    exact (hfinish.thenEchoes (echoChar_edits _ _)).thenQueues (commit_edits _ _)
  · cases h
    exact hfinish.thenQueues (commit_edits _ _)
  · cases h
    exact hfinish.thenQueues (store_edits _ _)

/-- How a received byte may stand in the queue: `ISTRIP` may have cleared its top
bit and the CR/NL translations may have exchanged a line ending. -/
def MayQueueAs (byte queued : Byte) : Prop :=
  ∃ stripped, (stripped = byte ∨ stripped = byte &&& 0x7f) ∧
    (queued = stripped ∨ stripped = 0x0d ∧ queued = 0x0a ∨ stripped = 0x0a ∧ queued = 0x0d)

theorem MayQueueAs.refl (byte : Byte) : MayQueueAs byte byte := ⟨byte, .inl rfl, .inl rfl⟩

theorem translate_mayQueueAs {queued : Byte} (h : d.translate byte = some queued) :
    MayQueueAs byte queued := by
  unfold Ldisc.translate at h
  extract_lets iflag stripped at h
  have hstripped : stripped = byte ∨ stripped = byte &&& 0x7f := by
    show (if _ then _ else _) = _ ∨ (if _ then _ else _) = _
    split_ifs
    · exact .inr rfl
    · exact .inl rfl
  refine ⟨stripped, hstripped, ?_⟩
  split_ifs at h with hreturn hignore hnewline hswap
  all_goals injection h with h
  · exact .inr (.inl ⟨hreturn, h.symm⟩)
  · exact .inl h.symm
  · exact .inr (.inr ⟨hswap.1, h.symm⟩)
  · exact .inl h.symm

variable {signals : List Int}

theorem receiveText_edits (h : d.receiveText byte = some (d', signals)) : Edits [byte] d d' := by
  unfold Ldisc.receiveText at h
  split at h
  · cases h
    exact (signalChar_edits d byte).arrive
  split_ifs at h
  · rw [Option.map_eq_some_iff] at h
    obtain ⟨d₁, hcanonical, hpair⟩ := h
    cases hpair
    exact receiveCanonical_edits hcanonical
  · cases h
    exact store_edits d byte

theorem receiveByte_edits (h : d.receiveByte byte = some (d', signals)) :
    ∃ queued, MayQueueAs byte queued ∧ Edits [queued] d d' := by
  unfold Ldisc.receiveByte at h
  split_ifs at h with hliteral
  · cases h
    exact ⟨byte, .refl byte, Edits.thenQueues (.of_screen id) (store_edits _ byte)⟩
  split at h
  · cases h
    exact ⟨byte, .refl byte, (Edits.refl _).arrive⟩
  · next queued htranslate =>
    refine ⟨queued, translate_mayQueueAs htranslate, ?_⟩
    dsimp only at h
    split_ifs at h
    · cases h
      exact Edits.arrive (.of_screen id)
    · cases h
      exact Edits.arrive (.of_screen id)
    · exact Edits.thenQueues (.of_screen id) (receiveText_edits h)
    · exact receiveText_edits h

/-- What bytes queued for what was received. -/
def Arrivals (received queued : List Byte) : Prop := List.Forall₂ MayQueueAs received queued

theorem arrivals_refl (bytes : List Byte) : Arrivals bytes bytes := by
  induction bytes with
  | nil => exact .nil
  | cons byte rest ih => exact .cons (.refl byte) ih

theorem receiveBytes_edits (h : Ldisc.receiveBytes bytes d = some (d', signals)) :
    ∃ queued, Arrivals bytes queued ∧ Edits queued d d' := by
  induction bytes generalizing d signals with
  | nil =>
    cases h
    exact ⟨[], .nil, .refl _⟩
  | cons byte rest ih =>
    unfold Ldisc.receiveBytes at h
    split at h
    · cases h
    · next d₁ first hbyte =>
      rw [Option.map_eq_some_iff] at h
      obtain ⟨⟨d₂, later⟩, hrest, hpair⟩ := h
      cases hpair
      obtain ⟨queued, hqueued, hedits⟩ := receiveByte_edits hbyte
      obtain ⟨more, hmore, hedits'⟩ := ih hrest
      exact ⟨queued :: more, .cons hqueued hmore, hedits.trans hedits'⟩

theorem receiveRaw_edits (bytes : List Byte) (d : Ldisc) (hnumber : d.number ≠ N_TTY) :
    Edits bytes d (d.receiveRaw bytes) := by
  have hraw : d.canonical ≠ true := by simp [Ldisc.canonical, hnumber]
  induction bytes generalizing d with
  | nil => exact .refl d
  | cons byte rest ih =>
    have hbyte : Edits [byte] d (if d.input.length < INPUT_LIMIT then
        { d with input := d.input ++ [byte] } else d) := by
      split_ifs with hroom
      · have hqueue := queue_edits d byte hroom
        rwa [if_neg hraw] at hqueue
      · exact (Edits.refl d).arrive
    have hrest := ih _ (hbyte.number ▸ hnumber) (by rw [hbyte.canonical]; exact hraw)
    exact hbyte.trans hrest

theorem receive_edits (h : d.receive bytes = some (d', signals)) :
    ∃ queued, Arrivals bytes queued ∧ Edits queued d d' := by
  unfold Ldisc.receive at h
  split_ifs at h with hnumber
  · cases h
    exact ⟨bytes, arrivals_refl bytes, receiveRaw_edits bytes d hnumber⟩
  rw [Option.map_eq_some_iff] at h
  obtain ⟨⟨d₁, signals₁⟩, hbytes, hpair⟩ := h
  cases hpair
  obtain ⟨queued, hqueued, hedits⟩ := receiveBytes_edits hbytes
  exact ⟨queued, hqueued, hedits.thenEchoes (applyThrottle_edits d₁)⟩

theorem receiveBreak_edits (h : d.receiveBreak = some (d', signals)) :
    ∃ queued, Arrivals [0] queued ∧ Edits queued d d' := by
  have hnul : Arrivals [0] [0] := .cons (.refl 0) .nil
  unfold Ldisc.receiveBreak at h
  split_ifs at h
  · cases h
    exact ⟨[0], hnul, (Edits.refl _).arrive⟩
  · cases h
    exact ⟨[0], hnul, ((flush_edits d .both).thenEchoes (.of_screen id)).arrive⟩
  · rw [Option.map_eq_some_iff] at h
    obtain ⟨⟨d₁, signals₁⟩, hbyte, hpair⟩ := h
    cases hpair
    obtain ⟨queued, hqueued, hedits⟩ := receiveByte_edits hbyte
    exact ⟨[queued], .cons hqueued .nil, hedits.thenEchoes (applyThrottle_edits d₁)⟩

end Kinakaze.Terminal
