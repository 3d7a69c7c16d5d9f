import Kinakaze.Terminal.Queues
import Kinakaze.Library.Run

/-!
# Nothing is lost, duplicated or made up

A run of operations with its history: the bytes received and the bytes that
reads returned.  As long as the queue is accounted for, the bytes returned and
the bytes still queued are, in order, among those that arrived.  The accounting
breaks in one place: entering canonical mode counts the whole queue as the line
under edit and keeps the lengths of complete lines recorded before canonical
mode was left.
-/

namespace Kinakaze.Terminal

open Library

variable {d d' : Ldisc}

/-! ## Histories -/

/-- A discipline with what it has received and what reads have returned. -/
structure History where
  received : List Byte
  returned : List Byte
  discipline : Ldisc

def History.fresh (termios : Termios) : History := ⟨[], [], .new termios⟩

/-- The bytes an operation feeds in; a break is a NUL. -/
def Operation.arriving : Operation → List Byte
  | .receive bytes => bytes
  | .receiveBreak => [0]
  | _ => []

/-- The bytes an answer hands to the reader. -/
def Answer.bytesRead : Answer → List Byte
  | .read (.data bytes) => bytes
  | _ => []

/-- One operation; a call that does not return leaves no later state. -/
def History.record (h : History) (operation : Operation) : History :=
  match h.discipline.perform operation with
  | none => h
  | some (d, answer) =>
    { received := h.received ++ operation.arriving
      returned := h.returned ++ answer.bytesRead
      discipline := d }

/-- What was returned and what is queued arrived, in this order. -/
def Arrived (received bytes : List Byte) : Prop :=
  ∃ queued, Arrivals received queued ∧ bytes.Sublist queued

structure History.Kept (h : History) : Prop where
  limits : h.discipline.Limits
  accounts : h.discipline.canonical = true → h.discipline.Accounts
  arrived : Arrived h.received (h.returned ++ h.discipline.input)

/-- The operation does not enter canonical mode while a complete line is still
recorded. -/
def History.Reconciles (h : History) (operation : Operation) : Prop :=
  match operation with
  | .retune termios =>
    h.discipline.canonical = false → { h.discipline with termios }.canonical = true →
      h.discipline.lines.sum = 0
  | .setNumber number =>
    h.discipline.canonical = false → { h.discipline with number }.canonical = true →
      h.discipline.lines.sum = 0
  | _ => True

/-! ## Arrival -/

variable {received bytes bytes' : List Byte}

theorem Arrived.sublist (h : Arrived received bytes)
    (hsub : bytes'.Sublist bytes) : Arrived received bytes' := by
  obtain ⟨queued, hqueued, hbytes⟩ := h
  exact ⟨queued, hqueued, hsub.trans hbytes⟩

theorem Arrived.append {received' queued' : List Byte} (h : Arrived received bytes)
    (hmore : Arrivals received' queued')
    (hsub : bytes'.Sublist (bytes ++ queued')) : Arrived (received ++ received') bytes' := by
  obtain ⟨queued, hqueued, hbytes⟩ := h
  refine ⟨queued ++ queued', List.rel_append hqueued hmore, ?_⟩
  exact hsub.trans (hbytes.append_right queued')

variable {h : History}

theorem History.Kept.edits (hk : h.Kept) {arriving queued : List Byte}
    (hqueued : Arrivals arriving queued) (hedits : Edits queued h.discipline d) :
    History.Kept ⟨h.received ++ arriving, h.returned, d⟩ where
  limits := hedits.limits hk.limits
  accounts hcanonical :=
    hedits.accounts (hedits.canonical ▸ hcanonical) (hk.accounts (hedits.canonical ▸ hcanonical))
  arrived := by
    refine hk.arrived.append hqueued ?_
    rw [List.append_assoc]
    exact hedits.input.append_left _

/-! ## Reads -/

theorem drained_eq {count : Nat} (h : count ≤ d.input.length) :
    d.drained count = d.input.take count := by
  unfold Ldisc.drained
  rw [Nat.sub_eq_zero_of_le h, List.replicate_zero, List.append_nil]

theorem read_canonical {size : Nat} (hcanonical : d.canonical = true) (haccounts : d.Accounts)
    (h : (d.read size).1 = .data bytes) :
    ∃ line rest, d.lines = line :: rest ∧ bytes.length ≤ line ∧
      bytes = d.input.take bytes.length := by
  unfold Ldisc.read at h
  rw [if_pos hcanonical] at h
  cases hlines : d.lines with
  | nil => simp [hlines] at h
  | cons line rest =>
    simp only [hlines] at h
    by_cases hline : line = 0
    · simp [hline] at h
    simp only [if_neg hline] at h
    injection h with h
    have hcount : min line size ≤ d.input.length := by
      rw [haccounts, hlines, List.sum_cons]
      omega
    rw [drained_eq hcount] at h
    have hlength : bytes.length = min line size := by
      rw [← h, List.length_take]
      omega
    refine ⟨line, rest, rfl, by omega, ?_⟩
    rw [hlength, h]

theorem read_kept (hk : h.Kept) (size : Nat) :
    History.Kept ⟨h.received, h.returned ++ (Answer.read (h.discipline.read size).1).bytesRead,
      (h.discipline.read size).2⟩ := by
  have hsame : ∀ d, d.input = h.discipline.input → d.output = h.discipline.output →
      (d.canonical = true → d.Accounts) → History.Kept ⟨h.received, h.returned ++ [], d⟩ := by
    intro d hinput houtput haccounts
    refine ⟨⟨hinput ▸ hk.limits.input, houtput ▸ hk.limits.output⟩, haccounts, ?_⟩
    rw [List.append_nil]
    show Arrived h.received (h.returned ++ d.input)
    rw [hinput]
    exact hk.arrived
  -- Bytes leave the queue: the rest is what an unthrottled queue would hold.
  have hdrain : ∀ count lines, count ≤ h.discipline.input.length → (h.discipline.canonical = true →
        h.discipline.input.length - count = lines.sum + h.discipline.pending) →
      History.Kept ⟨h.received, h.returned ++ h.discipline.drained count,
        { h.discipline with input := h.discipline.input.drop count, lines }.releaseThrottle⟩ := by
    intro count lines hcount haccounts
    have hrelease := releaseThrottle_edits
      { h.discipline with input := h.discipline.input.drop count, lines }
    refine ⟨hrelease.limits ⟨?_, hk.limits.output⟩, fun hcanonical => ?_, ?_⟩
    · exact Nat.le_trans (by simp) hk.limits.input
    · have hcanonical' := hrelease.canonical ▸ hcanonical
      refine hrelease.accounts hcanonical' ?_
      show (h.discipline.input.drop count).length = lines.sum + h.discipline.pending
      rw [List.length_drop]
      exact haccounts hcanonical'
    · refine hk.arrived.sublist ?_
      rw [drained_eq hcount, List.append_assoc]
      refine List.Sublist.append_left ?_ h.returned
      have hrest := hrelease.input
      rw [List.append_nil] at hrest
      have hsplit := hrest.append_left (h.discipline.input.take count)
      rwa [List.take_append_drop] at hsplit
  unfold Ldisc.read
  by_cases hcanonical : h.discipline.canonical = true
  · rw [if_pos hcanonical]
    have haccounts := hk.accounts hcanonical
    cases hlines : h.discipline.lines with
    | nil => exact hsame _ rfl rfl hk.accounts
    | cons line rest =>
      have hsum : h.discipline.input.length = line + rest.sum + h.discipline.pending := by
        rw [haccounts, hlines, List.sum_cons]
      by_cases hline : line = 0
      · simp only [if_pos hline]
        refine hsame _ rfl rfl fun _ => ?_
        show h.discipline.input.length = rest.sum + h.discipline.pending
        omega
      simp only [if_neg hline]
      refine hdrain (min line size) _ (by omega) fun _ => ?_
      split_ifs
      · rw [List.sum_cons]
        omega
      · omega
  · rw [if_neg hcanonical]
    split_ifs
    · exact hsame _ rfl rfl hk.accounts
    · exact hdrain _ _ (Nat.min_le_left _ _) fun hmode => absurd hmode hcanonical

/-! ## Mode switches -/

theorem reconcile_input (d : Ldisc) (was : Bool) : (d.reconcile was).input = d.input := by
  unfold Ldisc.reconcile
  split_ifs <;> rfl

theorem retune_input (d : Ldisc) (termios : Termios) : (d.retune termios).input = d.input := by
  unfold Ldisc.retune
  dsimp only
  split_ifs
  all_goals exact reconcile_input { d with termios } d.canonical

theorem setNumber_input (d : Ldisc) (number : Int) : (d.setNumber number).input = d.input :=
  reconcile_input { d with number } d.canonical

theorem reconcile_accounts {was : Bool} (hbefore : was = true → d.Accounts) :
    ((d.reconcile was).canonical = true → (d.reconcile was).Accounts) ↔
      (was = false → d.canonical = true → d.lines.sum = 0) := by
  have hmode : (d.reconcile was).canonical = d.canonical := by
    unfold Ldisc.reconcile
    split_ifs <;> rfl
  rw [hmode]
  cases was with
  | true =>
    refine ⟨fun _ hfalse => by simp at hfalse, fun _ hcanonical => ?_⟩
    have hkept : d.reconcile true = d := by simp [Ldisc.reconcile, hcanonical]
    rw [hkept]
    exact hbefore rfl
  | false =>
    refine ⟨fun h _ hcanonical => ?_, fun h hcanonical => ?_⟩
    · have haccounts := h hcanonical
      simp only [Ldisc.reconcile, hcanonical, Ldisc.Accounts, Bool.false_and, Bool.not_false,
        Bool.and_true, Bool.false_eq_true, if_false, if_true] at haccounts
      omega
    · have hsum := h rfl hcanonical
      simp only [Ldisc.reconcile, hcanonical, Ldisc.Accounts, Bool.false_and, Bool.not_false,
        Bool.and_true, Bool.false_eq_true, if_false, if_true]
      omega

theorem reconcile_limits (hd : d.Limits) (was : Bool) : (d.reconcile was).Limits := by
  unfold Ldisc.reconcile
  split_ifs
  all_goals exact ⟨hd.input, hd.output⟩

theorem reconcile_kept (hk : h.Kept) (hinput : d.input = h.discipline.input)
    (houtput : d.output = h.discipline.output) (hlines : d.lines = h.discipline.lines)
    (hpending : d.pending = h.discipline.pending) :
    History.Kept ⟨h.received, h.returned, d.reconcile h.discipline.canonical⟩ ↔
      (h.discipline.canonical = false → d.canonical = true → h.discipline.lines.sum = 0) := by
  have hbefore : h.discipline.canonical = true → d.Accounts := by
    intro hcanonical
    have haccounts := hk.accounts hcanonical
    unfold Ldisc.Accounts at haccounts ⊢
    rw [hinput, hlines, hpending, haccounts]
  rw [← hlines, ← reconcile_accounts hbefore]
  refine ⟨fun hkept => hkept.accounts, fun haccounts => ⟨?_, haccounts, ?_⟩⟩
  · exact reconcile_limits ⟨hinput ▸ hk.limits.input, houtput ▸ hk.limits.output⟩ _
  · show Arrived h.received (h.returned ++ (d.reconcile h.discipline.canonical).input)
    rw [reconcile_input, hinput]
    exact hk.arrived

theorem kept_stopped {stopped : Bool} : History.Kept ⟨h.received, h.returned, { d with stopped }⟩ ↔
      History.Kept ⟨h.received, h.returned, d⟩ :=
  ⟨fun hk => ⟨⟨hk.limits.input, hk.limits.output⟩, hk.accounts, hk.arrived⟩,
    fun hk => ⟨⟨hk.limits.input, hk.limits.output⟩, hk.accounts, hk.arrived⟩⟩

/-! ## One operation -/

theorem kept_step (hk : h.Kept) (operation : Operation) :
    (h.record operation).Kept ↔ h.Reconciles operation := by
  have hquiet : ∀ d answer, Edits [] h.discipline d → Answer.bytesRead answer = [] →
      History.Kept ⟨h.received ++ [], h.returned ++ answer.bytesRead, d⟩ := by
    intro d answer hedits hanswer
    rw [hanswer, List.append_nil]
    have hkept := hk.edits .nil hedits
    rwa [List.append_nil] at hkept ⊢
  cases operation with
  | receive bytes =>
    refine iff_of_true ?_ trivial
    cases hreceive : h.discipline.receive bytes with
    | none =>
      have hsame : h.record (.receive bytes) = h := by
        simp [History.record, Ldisc.perform, hreceive]
      rw [hsame]
      exact hk
    | some result =>
      obtain ⟨queued, hqueued, hedits⟩ := receive_edits hreceive
      have hnext : h.record (.receive bytes) = ⟨h.received ++ bytes, h.returned, result.1⟩ := by
        simp [History.record, Ldisc.perform, hreceive, Operation.arriving, Answer.bytesRead]
      rw [hnext]
      exact hk.edits hqueued hedits
  | receiveBreak =>
    refine iff_of_true ?_ trivial
    cases hreceive : h.discipline.receiveBreak with
    | none =>
      have hsame : h.record (.receiveBreak) = h := by
        simp [History.record, Ldisc.perform, hreceive]
      rw [hsame]
      exact hk
    | some result =>
      obtain ⟨queued, hqueued, hedits⟩ := receiveBreak_edits hreceive
      have hnext : h.record (.receiveBreak) = ⟨h.received ++ [0], h.returned, result.1⟩ := by
        simp [History.record, Ldisc.perform, hreceive, Operation.arriving, Answer.bytesRead]
      rw [hnext]
      exact hk.edits hqueued hedits
  | read size =>
    refine iff_of_true ?_ trivial
    have hread := read_kept hk size
    simp only [History.record, Ldisc.perform, Operation.arriving, List.append_nil]
    exact hread
  | readOutput size =>
    refine iff_of_true (hquiet _ _ ?_ rfl) trivial
    refine .of_screen fun hlimit => ?_
    rw [List.length_drop]
    omega
  | writeOutput bytes =>
    exact iff_of_true (hquiet _ _ (writeOutput_edits _ bytes) rfl) trivial
  | flush queue => exact iff_of_true (hquiet _ _ (flush_edits _ queue) rfl) trivial
  | setOutputStopped stopped => exact iff_of_true (hquiet _ _ (.of_screen id) rfl) trivial
  | setNumber number =>
    have hswitch := reconcile_kept (d := { h.discipline with number }) hk rfl rfl rfl rfl
    simp only [History.record, Ldisc.perform, Operation.arriving, Answer.bytesRead, List.append_nil]
    exact hswitch
  | retune termios =>
    have hswitch := reconcile_kept (d := { h.discipline with termios }) hk rfl rfl rfl rfl
    simp only [History.record, Ldisc.perform, Operation.arriving, Answer.bytesRead,
      List.append_nil, Ldisc.retune]
    split_ifs
    · exact hswitch
    · exact kept_stopped.trans hswitch

/-! ## Runs -/

theorem fresh_kept (termios : Termios) : (History.fresh termios).Kept where
  limits := ⟨Nat.zero_le _, Nat.zero_le _⟩
  accounts _ := rfl
  arrived := ⟨[], .nil, .slnil⟩

/-- Over any sequence of operations on a new discipline, the capacities hold, the
queue is accounted for and the bytes returned are received bytes in order of
arrival, in every state, exactly when no operation enters canonical mode while
a complete line is still recorded.  In an accounted state a canonical read stays
within the first line; a switch leaves the queued bytes as they are. -/
theorem queues_kept (termios : Termios) (operations : List Operation) :
    (EveryState History.record History.Kept (.fresh termios) operations ↔
      EveryStep History.record History.Reconciles (.fresh termios) operations) ∧
    (∀ (d : Ldisc) (size : Nat) (bytes : List Byte), d.canonical = true → d.Accounts →
      (d.read size).1 = .data bytes → ∃ line rest, d.lines = line :: rest ∧
        bytes.length ≤ line ∧ bytes = d.input.take bytes.length) ∧
    ∀ d : Ldisc, (∀ termios, (d.retune termios).input = d.input) ∧
      ∀ number, (d.setNumber number).input = d.input := by
  refine ⟨?_, fun d size bytes hcanonical haccounts h => read_canonical hcanonical haccounts h,
    fun d => ⟨retune_input d, setNumber_input d⟩⟩
  exact everyState_iff_everyStep (I := fun _ => True) (fun _ _ _ => trivial)
    (fun h operation _ hk => kept_step hk operation) trivial (fresh_kept termios)

/-- Settings without canonical mode. -/
def uncookedTermios : Termios := { defaultTermios with lflag := 0, iflag := 0 }

/-- A line is committed, canonical mode left and entered again, and the terminal
read twice around another line. -/
def recommitted : List Operation :=
  [.receive [0x61, 0x62, 0x0a], .retune uncookedTermios, .retune defaultTermios, .read 16,
    .receive [0x0a], .read 16]

/-- The last read returns three NULs nobody typed. -/
theorem recommitted_fabricates :
    ¬ EveryState History.record History.Kept (.fresh defaultTermios) recommitted ∧
      (run History.record (.fresh defaultTermios) recommitted).received = [0x61, 0x62, 0x0a, 0x0a] ∧
      (run History.record (.fresh defaultTermios) recommitted).returned =
        [0x61, 0x62, 0x0a, 0x0a, 0x00, 0x00, 0x00] := by
  refine ⟨fun h => ?_, by decide, by decide⟩
  have hkept := h.2.2.2.head
  have haccounts := hkept.accounts (by decide)
  revert haccounts
  unfold Ldisc.Accounts
  decide

end Kinakaze.Terminal
