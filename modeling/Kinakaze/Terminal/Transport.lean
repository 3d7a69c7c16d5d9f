import Kinakaze.Terminal.Accounting
import Kinakaze.Terminal.Shared

/-!
# Moving a terminal between processes

The shared block has fixed capacities and narrow integers.  A discipline comes
back from it unchanged exactly when it fits: no more complete lines than slots,
lengths and columns within their integers, and no more bytes under edit than
bytes queued.
-/

namespace Kinakaze.Terminal

variable {d d' : Ldisc}

/-- The discipline fits the shared block. -/
structure Ldisc.Fits (d : Ldisc) : Prop where
  lineCount : d.lines.length ≤ INPUT_LIMIT
  lineLength : ∀ line ∈ d.lines, line < 2 ^ 16
  pending : d.pending ≤ d.input.length
  column : d.column < 2 ^ 32
  canonColumn : d.canonColumn < 2 ^ 32

/-! ## There and back -/

theorem take_overwrite {α : Type} (array new : List α) :
    (overwrite array new).take new.length = new := by
  rw [overwrite, List.take_left]

theorem toNat_count {n limit : Nat} (hlimit : limit < 2 ^ 32) :
    (BitVec.ofNat 32 (min n limit)).toNat = min n limit := by
  rw [BitVec.toNat_ofNat, Nat.mod_eq_of_lt]
  omega

theorem take_stored {α : Type} (array new : List α) {limit : Nat} (h : new.length ≤ limit)
    (hlimit : limit < 2 ^ 32) :
    (overwrite array (new.take (min new.length limit))).take
      (min (BitVec.ofNat 32 (min new.length limit)).toNat limit) = new := by
  rw [toNat_count hlimit, Nat.min_eq_left h, Nat.min_eq_left h, List.take_length]
  exact take_overwrite array new

theorem load_store (hd : d.Limits) (shared : Shared) : loadLdisc (storeLdisc shared d) = { d with
        pending := min d.pending d.input.length
        lines := (d.lines.take INPUT_LIMIT).map (· % 2 ^ 16)
        column := d.column % 2 ^ 32
        canonColumn := d.canonColumn % 2 ^ 32 } := by
  have hinput := take_stored shared.input d.input hd.input (by decide)
  have houtput := take_stored shared.output d.output hd.output (by decide)
  have hlines : ((overwrite shared.lines
      ((d.lines.take (min d.lines.length INPUT_LIMIT)).map (BitVec.ofNat 16))).take
        (min (BitVec.ofNat 32 (min d.lines.length INPUT_LIMIT)).toNat INPUT_LIMIT)).map
          BitVec.toNat = (d.lines.take INPUT_LIMIT).map (· % 2 ^ 16) := by
    have hcount : min (min d.lines.length INPUT_LIMIT) INPUT_LIMIT =
        ((d.lines.take INPUT_LIMIT).map (BitVec.ofNat 16)).length := by
      rw [List.length_map, List.length_take]
      omega
    have htake : d.lines.take (min d.lines.length INPUT_LIMIT) = d.lines.take INPUT_LIMIT := by
      rw [List.take_eq_take_iff]
      omega
    rw [toNat_count (by decide), htake, hcount, take_overwrite, List.map_map]
    refine List.map_congr_left fun line _ => ?_
    simp [Function.comp, BitVec.toNat_ofNat]
  have hpending : min (BitVec.ofNat 32 (min d.pending (min d.input.length INPUT_LIMIT))).toNat
        (min (BitVec.ofNat 32 (min d.input.length INPUT_LIMIT)).toNat INPUT_LIMIT) =
      min d.pending d.input.length := by
    have hlimit := hd.input
    have hsmall : INPUT_LIMIT < 2 ^ 32 := by decide
    rw [toNat_count hsmall, BitVec.toNat_ofNat, Nat.mod_eq_of_lt (by omega)]
    omega
  unfold loadLdisc storeLdisc
  dsimp only
  rw [hinput, houtput, hlines, hpending, BitVec.toNat_ofNat, BitVec.toNat_ofNat]

theorem load_store_iff (hd : d.Limits) (shared : Shared) :
    loadLdisc (storeLdisc shared d) = d ↔ d.Fits := by
  rw [load_store hd shared]
  constructor
  · intro h
    have hpending := congrArg Ldisc.pending h
    have hlines := congrArg Ldisc.lines h
    have hcolumn := congrArg Ldisc.column h
    have hcanon := congrArg Ldisc.canonColumn h
    dsimp only at hpending hlines hcolumn hcanon
    refine ⟨?_, fun line hmem => ?_, by omega, ?_, ?_⟩
    · have hlength := congrArg List.length hlines
      rw [List.length_map, List.length_take] at hlength
      omega
    · rw [← hlines, List.mem_map] at hmem
      obtain ⟨length, -, rfl⟩ := hmem
      exact Nat.mod_lt _ (by decide)
    · rw [← hcolumn]
      exact Nat.mod_lt _ (by decide)
    · rw [← hcanon]
      exact Nat.mod_lt _ (by decide)
  · intro h
    have hlines : (d.lines.take INPUT_LIMIT).map (· % 2 ^ 16) = d.lines := by
      rw [List.take_of_length_le h.lineCount]
      have hid : d.lines.map (· % 2 ^ 16) = d.lines.map id :=
        List.map_congr_left fun line hmem => Nat.mod_eq_of_lt (h.lineLength line hmem)
      rw [hid, List.map_id]
    rw [hlines, Nat.min_eq_left h.pending, Nat.mod_eq_of_lt h.column,
      Nat.mod_eq_of_lt h.canonColumn]

/-! ## Reachable disciplines -/

theorem read_limits (hd : d.Limits) (size : Nat) : (d.read size).2.Limits := by
  have hdrain : ∀ count lines,
      ({ d with input := d.input.drop count, lines }.releaseThrottle).Limits := by
    intro count lines
    refine (releaseThrottle_edits _).limits ⟨?_, hd.output⟩
    exact Nat.le_trans (by simp) hd.input
  unfold Ldisc.read
  by_cases hcanonical : d.canonical = true
  · rw [if_pos hcanonical]
    cases d.lines with
    | nil => exact hd
    | cons line rest =>
      dsimp only
      split
      · exact ⟨hd.input, hd.output⟩
      · exact hdrain _ _
  · rw [if_neg hcanonical]
    split
    · exact hd
    · exact hdrain _ _

theorem perform_limits {operation : Operation} {answer : Answer} (hd : d.Limits)
    (h : d.perform operation = some (d', answer)) : d'.Limits := by
  cases operation with
  | receive bytes =>
    obtain ⟨⟨d₁, signals⟩, hreceive, hpair⟩ := Option.map_eq_some_iff.mp h
    cases hpair
    obtain ⟨queued, -, hedits⟩ := receive_edits hreceive
    exact hedits.limits hd
  | receiveBreak =>
    obtain ⟨⟨d₁, signals⟩, hreceive, hpair⟩ := Option.map_eq_some_iff.mp h
    cases hpair
    obtain ⟨queued, -, hedits⟩ := receiveBreak_edits hreceive
    exact hedits.limits hd
  | read size =>
    cases h
    exact read_limits hd size
  | readOutput size =>
    cases h
    refine ⟨hd.input, Nat.le_trans ?_ hd.output⟩
    simp [Ldisc.readOutput]
  | writeOutput bytes =>
    cases h
    exact (writeOutput_edits d bytes).limits hd
  | flush queue =>
    cases h
    exact (flush_edits d queue).limits hd
  | retune termios =>
    cases h
    have hswitch := reconcile_limits (d := { d with termios }) ⟨hd.input, hd.output⟩ d.canonical
    unfold Ldisc.retune
    dsimp only
    split_ifs
    · exact hswitch
    · exact ⟨hswitch.input, hswitch.output⟩
  | setNumber number =>
    cases h
    exact reconcile_limits (d := { d with number }) ⟨hd.input, hd.output⟩ d.canonical
  | setOutputStopped stopped =>
    cases h
    exact ⟨hd.input, hd.output⟩

/-- The disciplines a terminal reaches by loading, operating and storing, from a
fresh block on. -/
inductive Reached : Ldisc → Prop
  | fresh : Reached (loadLdisc .fresh)
  | operate {d d' : Ldisc} {operation : Operation} {answer : Answer} (h : Reached d)
      (hperform : d.perform operation = some (d', answer)) : Reached d'
  | transport {d : Ldisc} (h : Reached d) (shared : Shared) :
      Reached (loadLdisc (storeLdisc shared d))

theorem loadLdisc_limits (shared : Shared) : (loadLdisc shared).Limits where
  input := by
    simp only [loadLdisc, List.length_take]
    omega
  output := by
    simp only [loadLdisc, List.length_take]
    omega

theorem Reached.limits (h : Reached d) : d.Limits := by
  induction h with
  | fresh | transport => exact loadLdisc_limits _
  | operate _ hperform ih => exact perform_limits ih hperform

/-! ## Operations split between processes -/

/-- The answers of operations run one after the other in one process. -/
def answers : Ldisc → List Operation → Option (List Answer)
  | _, [] => some []
  | d, operation :: rest =>
    match d.perform operation with
    | none => none
    | some (d', answer) => (answers d' rest).map (answer :: ·)

/-- The answers when each operation loads the terminal and stores it back. -/
def sharedAnswers : Shared → List Operation → Option (List Answer)
  | _, [] => some []
  | shared, operation :: rest =>
    match shared.operate operation with
    | none => none
    | some (shared', answer) => (sharedAnswers shared' rest).map (answer :: ·)

/-- Every discipline the operations lead to in one process fits the block. -/
def FitsThroughout : Ldisc → List Operation → Prop
  | _, [] => True
  | d, operation :: rest =>
    ∀ d' answer, d.perform operation = some (d', answer) → d'.Fits ∧ FitsThroughout d' rest

theorem sharedAnswers_eq {operations : List Operation} {shared : Shared}
    (hd : (loadLdisc shared).Limits) (hfits : FitsThroughout (loadLdisc shared) operations) :
    sharedAnswers shared operations = answers (loadLdisc shared) operations := by
  induction operations generalizing shared with
  | nil => rfl
  | cons operation rest ih =>
    rw [sharedAnswers, answers, Shared.operate]
    cases hperform : (loadLdisc shared).perform operation with
    | none => rfl
    | some result =>
      obtain ⟨d', answer⟩ := result
      obtain ⟨hfit, hrest⟩ := hfits d' answer hperform
      have hlimits := perform_limits hd hperform
      have hback := (load_store_iff hlimits shared).mpr hfit
      have hsame : sharedAnswers (storeLdisc shared d') rest = answers d' rest := by
        rw [← hback] at hlimits hrest
        rw [ih hlimits hrest, hback]
      simp only [Option.map_some, hsame]

/-- A cooked terminal with nothing under edit and `marks` end-of-file marks. -/
def marked (marks : Nat) : Ldisc :=
  { Ldisc.new defaultTermios with lines := List.replicate marks 0 }

theorem receiveByte_marked (marks : Nat) :
    (marked marks).receiveByte 0x04 = some (marked (marks + 1), []) := by
  have hother : ∀ slot ∈ [VSTOP, VSTART, VINTR, VQUIT, VSUSP, VERASE, VKILL, VWERASE, VLNEXT,
      VREPRINT], defaultTermios.matches slot 4#8 = false := by decide
  have heof : defaultTermios.matches VEOF 4#8 = true := by decide
  have hstrip : defaultTermios.iflag.any ISTRIP = false := by decide
  have hcanon : defaultTermios.lflag.any ICANON = true := by decide
  simp only [List.mem_cons, List.not_mem_nil, or_false, forall_eq_or_imp, forall_eq] at hother
  obtain ⟨hstop, hstart, hintr, hquit, hsusp, herase, hkill, hwerase, hlnext, hreprint⟩ := hother
  simp [marked, Ldisc.new, Ldisc.receiveByte, Ldisc.translate, Ldisc.receiveText,
    Ldisc.signalOf, Ldisc.receiveCanonical, Ldisc.finishErasePrinting, Ldisc.commit, *,
    List.replicate_succ']

theorem receiveBytes_marked (more marks : Nat) :
    Ldisc.receiveBytes (List.replicate more 0x04) (marked marks) =
      some (marked (marks + more), []) := by
  induction more generalizing marks with
  | zero => rfl
  | succ more ih =>
    rw [List.replicate_succ, Ldisc.receiveBytes, receiveByte_marked]
    simp only [ih, Option.map_some, List.append_nil]
    rw [Nat.add_assoc, Nat.add_comm 1]

theorem loadLdisc_fresh : loadLdisc .fresh = marked 0 := by decide

theorem reached_marked (marks : Nat) : Reached (marked marks) := by
  have hreceive : (loadLdisc .fresh).perform (.receive (List.replicate marks 0x04)) =
      some (marked marks, .signals []) := by
    have hbytes := receiveBytes_marked marks 0
    rw [Nat.zero_add] at hbytes
    rw [loadLdisc_fresh]
    simp only [Ldisc.perform, Ldisc.receive]
    have hflow : defaultTermios.iflag.any IXOFF = false := by decide
    rw [if_neg (by simp [marked, Ldisc.new]), hbytes]
    simp [Ldisc.applyThrottle, marked, Ldisc.new, hflow]
  exact .operate .fresh hreceive

end Kinakaze.Terminal
