import Kinakaze.Fifo.Endpoints
import Mathlib.Data.List.Basic

/-!
# What the generations remember

The history says which endpoints were opened and dropped, in order.  A row's
peer has existed for it when one was open as the row was published or was
opened at any point after.  The generations say exactly that: the one a row was
published with differs from the present one if and only if a peer has existed.
-/

namespace Kinakaze.Fifo.Presence

/-! ## Histories -/

/-- The endpoint has been opened on the side and not been dropped. -/
def OpenIn (history : List Entry) (side : Side) (id : Nat) : Prop :=
  .opened side id ∈ history ∧ .closed id ∉ history

/-- An endpoint on `side` was open as the row `id` was published, or was opened
at some point after.  The newest entry of a history is its first. -/
def Existed (history : List Entry) (side : Side) (id : Nat) : Prop :=
  ∃ after before, history = after ++ .published id :: before ∧
    ∃ peer, .opened side peer ∈ after ∨ OpenIn before side peer

def Entry.id : Entry → Nat
  | .published id => id
  | .opened _ id => id
  | .closed id => id

/-- Rows are published in the order of their identities, and so are the
endpoints of one side opened. -/
def Entry.Follows : Entry → Entry → Prop
  | .published new, .published old => old < new
  | .opened side new, .opened side' old => side = side' → old < new
  | _, _ => True

/-- The endpoint opened last on a side, or zero. -/
def newest (side : Side) : List Entry → Nat
  | [] => 0
  | .opened side' id :: rest => if side' = side then id else newest side rest
  | _ :: rest => newest side rest

variable {side : Side} {history : List Entry}

theorem newest_mem (h : newest side history ≠ 0) :
    .opened side (newest side history) ∈ history := by
  induction history with
  | nil => exact absurd rfl h
  | cons entry rest ih =>
    cases entry with
    | published | closed => exact List.mem_cons_of_mem _ (ih h)
    | opened side' id =>
      simp only [newest] at h ⊢
      split_ifs at h ⊢ with hside
      · rw [hside]
        exact List.mem_cons_self
      · exact List.mem_cons_of_mem _ (ih h)

theorem le_newest (h : history.Pairwise Entry.Follows)
    {id : Nat} (hmem : .opened side id ∈ history) : id ≤ newest side history := by
  induction history with
  | nil => simp at hmem
  | cons entry rest ih =>
    obtain ⟨hfirst, hrest⟩ := List.pairwise_cons.mp h
    cases entry with
    | published | closed => exact ih hrest (by simpa using hmem)
    | opened side' new =>
      simp only [newest]
      split_ifs with hside
      · rcases List.mem_cons.mp hmem with heq | hin
        · cases heq
          exact Nat.le_refl _
        · exact Nat.le_of_lt (hfirst _ hin hside)
      · rcases List.mem_cons.mp hmem with heq | hin
        · cases heq
          exact absurd rfl hside
        · exact ih hrest hin

/-! ## The invariant -/

/-- The generation a row is published with when the history is `before`. -/
def Snapshot (before : List Entry) (side : Side) (generation : Nat) : Prop :=
  ((∃ peer, OpenIn before side peer) → generation + 1 = newest side before) ∧
  ((¬ ∃ peer, OpenIn before side peer) → generation = newest side before)

/-- What holds of a row in use. -/
structure RowKept (s : State) (row : Row) : Prop where
  published : ∃ after before, s.history = after ++ .published row.id :: before ∧
    ∀ side, Snapshot before side (row.seen side)
  unclosed : .closed row.id ∉ s.history
  opened : ∀ side, row.access side → .opened side row.id ∈ s.history ∨ row.id + 1 = s.nextId

structure Kept (s : State) : Prop where
  positive : 0 < s.nextId
  ids : ∀ entry ∈ s.history, 0 < entry.id ∧ entry.id < s.nextId
  ordered : s.history.Pairwise Entry.Follows
  generation : ∀ side, s.generation side = newest side s.history
  rows : ∀ row, some row ∈ s.rows → RowKept s row
  distinct : ∀ (i j : Nat) (row row' : Row), s.rows[i]? = some (some row) → s.rows[j]? = some (some row') →
    row.id = row'.id → i = j
  held : ∀ side id, OpenIn s.history side id → ∃ row, some row ∈ s.rows ∧ row.id = id ∧
    row.access side

/-- The rows with access to a side. -/
def withAccess (side : Side) (slot : Option Row) : Bool := slot.any fun row => row.access side

/-- What holds in addition where no scan is due. -/
structure Settled (s : State) : Prop where
  present : ∀ side, s.present side = s.rows.countP (withAccess side)
  recorded : ∀ row, some row ∈ s.rows → ∀ side, row.access side → .opened side row.id ∈ s.history

/-! ## The generations and the history -/

variable {after before : List Entry}

theorem newest_append_of_mem {peer : Nat}
    (h : .opened side peer ∈ after) : newest side (after ++ before) = newest side after := by
  induction after with
  | nil => simp at h
  | cons entry rest ih =>
    cases entry with
    | published | closed => exact ih (by simpa using h)
    | opened side' id =>
      simp only [List.cons_append, newest]
      split_ifs with hside
      · rfl
      apply ih
      rcases List.mem_cons.mp h with heq | hin
      · cases heq
        exact absurd rfl hside
      · exact hin

theorem newest_append_of_not (h : ∀ peer, .opened side peer ∉ after) :
    newest side (after ++ before) = newest side before := by
  induction after with
  | nil => rfl
  | cons entry rest ih =>
    have hrest : ∀ peer, .opened side peer ∉ rest :=
      fun peer hin => h peer (List.mem_cons_of_mem _ hin)
    cases entry with
    | published | closed => exact ih hrest
    | opened side' id =>
      simp only [List.cons_append, newest]
      split_ifs with hside
      · subst hside
        exact absurd List.mem_cons_self (h id)
      · exact ih hrest

theorem Kept.published_unique {s : State} (h : Kept s) {id : Nat} {after' before' : List Entry}
    (heq : s.history = after ++ .published id :: before)
    (heq' : s.history = after' ++ .published id :: before') :
    after = after' ∧ before = before' := by
  have hordered := h.ordered
  rw [heq'] at hordered
  obtain ⟨-, hbefore, hafter⟩ := List.pairwise_append.mp hordered
  have hnotafter : Entry.published id ∉ after' := fun hin =>
    Nat.lt_irrefl id (hafter _ hin _ List.mem_cons_self)
  have hnotbefore : Entry.published id ∉ before' := fun hin =>
    Nat.lt_irrefl id ((List.pairwise_cons.mp hbefore).1 _ hin)
  have hboth := heq'.symm.trans heq
  obtain ⟨hsame, -, hsame'⟩ := (List.append_cons_inj_of_notMem hnotafter hnotbefore).mp hboth
  exact ⟨hsame.symm, hsame'.symm⟩

theorem Snapshot.le {generation : Nat}
    (h : Snapshot before side generation) : generation ≤ newest side before := by
  by_cases hopen : ∃ peer, OpenIn before side peer
  · have heq := h.1 hopen
    omega
  · exact Nat.le_of_eq (h.2 hopen)

theorem Kept.seen_iff {s : State} (h : Kept s) {row : Row} (hrow : some row ∈ s.rows)
    (side : Side) : s.generation side ≠ row.seen side ↔ Existed s.history side row.id := by
  obtain ⟨after, before, hhistory, hsnapshot⟩ := (h.rows row hrow).published
  have hside := hsnapshot side
  have hordered := h.ordered
  rw [hhistory] at hordered
  obtain ⟨hordafter, hordbefore, hacross⟩ := List.pairwise_append.mp hordered
  have hexisted : Existed s.history side row.id ↔
      ∃ peer, .opened side peer ∈ after ∨ OpenIn before side peer := by
    constructor
    · rintro ⟨after', before', heq, hpeer⟩
      obtain ⟨rfl, rfl⟩ := h.published_unique hhistory heq
      exact hpeer
    · exact fun hpeer => ⟨after, before, hhistory, hpeer⟩
  rw [hexisted, h.generation side, hhistory]
  by_cases hlater : ∃ peer, .opened side peer ∈ after
  · obtain ⟨peer, hpeer⟩ := hlater
    rw [newest_append_of_mem hpeer]
    have hpositive := (h.ids (.opened side peer) (by rw [hhistory]; simp [hpeer])).1
    have hle := le_newest hordafter hpeer
    have hpast : newest side before < newest side after := by
      by_cases hzero : newest side before = 0
      · rw [hzero]
        exact Nat.lt_of_lt_of_le hpositive hle
      have hnonzero : newest side after ≠ 0 := by
        simp only [Entry.id] at hpositive
        omega
      exact hacross _ (newest_mem hnonzero) _ (List.mem_cons_of_mem _ (newest_mem hzero)) rfl
    have hseen := hside.le
    constructor
    · exact fun _ => ⟨peer, Or.inl hpeer⟩
    · intro _
      omega
  · have hnone : ∀ peer, .opened side peer ∉ after := fun peer hin => hlater ⟨peer, hin⟩
    rw [newest_append_of_not hnone]
    change newest side before ≠ row.seen side ↔ _
    constructor
    · intro hne
      by_contra hnobody
      apply hne
      exact (hside.2 fun ⟨peer, hopen⟩ => hnobody ⟨peer, Or.inr hopen⟩).symm
    · rintro ⟨peer, hin | hopen⟩
      · exact absurd hin (hnone peer)
      · have heq := hside.1 ⟨peer, hopen⟩
        omega

theorem Kept.congr {s s' : State} (h : Kept s) (hrows : s'.rows = s.rows)
    (hhistory : s'.history = s.history) (hnext : s'.nextId = s.nextId)
    (hgeneration : ∀ side, s'.generation side = newest side s'.history) : Kept s' := by
  obtain ⟨positive, ids, ordered, -, rows, distinct, held⟩ := h
  rw [← hhistory] at ids ordered held
  rw [← hnext] at positive ids
  rw [← hrows] at rows distinct held
  refine ⟨positive, ids, ordered, hgeneration, fun row hrow => ?_, distinct, held⟩
  obtain ⟨published, unclosed, opened⟩ := rows row hrow
  exact ⟨hhistory ▸ published, hhistory ▸ unclosed, hhistory ▸ hnext ▸ opened⟩

end Kinakaze.Fifo.Presence
