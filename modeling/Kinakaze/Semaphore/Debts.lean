import Kinakaze.Semaphore.Set
import Mathlib.Tactic.Ring

/-!
# What recording a debt does

`record_undo` changes the debt of one owner on one semaphore, by what it is asked unless
the sum leaves `i32`.  A sequence of calls (`replay`) changes it by the sum of what they
ask, less what the calls ask that find neither the debt nor a free slot (`missed`).
-/

namespace Kinakaze.Semaphore

open Kinakaze.Library

variable {undo undo' : List UndoEntry} {o o' : Owner} {s s' : Nat} {delta : Int}

/-! ## Debts of a table -/

variable {e : UndoEntry}

theorem owes_iff (h : e.owes o s = true) : e.owes o' s' = true ↔ o' = o ∧ s' = s := by
  obtain ⟨pid, started, managed, hpid⟩ := o
  obtain ⟨pid', started', managed', hpid'⟩ := o'
  simp only [UndoEntry.owes, UndoEntry.owedBy, Bool.and_eq_true, beq_iff_eq] at h ⊢
  obtain ⟨⟨⟨rfl, rfl⟩, rfl⟩, rfl⟩ := h
  constructor
  · rintro ⟨⟨⟨rfl, rfl⟩, rfl⟩, rfl⟩
    exact ⟨rfl, rfl⟩
  · rintro ⟨hsame, rfl⟩
    cases hsame
    simp

theorem owes_free (h : e.pid = 0) : e.owes o s = false := by
  have hpid := o.pid_pos
  simp only [UndoEntry.owes, UndoEntry.owedBy, Bool.and_eq_false_iff, beq_eq_false_iff_ne]
  exact .inl (.inl (.inl (by omega)))

@[simp] theorem owes_entry : (o.entry s delta).owes o s = true := by
  simp [UndoEntry.owes, UndoEntry.owedBy, Owner.entry]

@[simp] theorem debt_nil : debt [] o s = 0 := rfl

@[simp] theorem debt_cons (e : UndoEntry) (undo : List UndoEntry) :
    debt (e :: undo) o s = (if e.owes o s then e.adjust else 0) + debt undo o s := by
  unfold debt
  by_cases h : e.owes o s = true <;> simp [h]

@[simp] theorem debt_append (xs ys : List UndoEntry) :
    debt (xs ++ ys) o s = debt xs o s + debt ys o s := by
  simp [debt]

/-- What an entry counts for in the debt of `o` on `s`. -/
def UndoEntry.worth (e : UndoEntry) (o : Owner) (s : Nat) : Int :=
  if e.owes o s then e.adjust else 0

theorem worth_add (h : e.owes o s = true) : (e.add delta).worth o s = saturate (e.adjust + delta) ∧
      ((e.add delta).owes o s = true ∨ (e.add delta).pid = 0) := by
  by_cases hzero : saturate (e.adjust + delta) = 0
  · have hfree : (e.add delta).pid = 0 := by simp [UndoEntry.add, hzero]
    rw [UndoEntry.worth, owes_free hfree, hzero]
    exact ⟨rfl, .inr hfree⟩
  · have howes : (e.add delta).owes o s = true := by
      simpa [UndoEntry.add, hzero, UndoEntry.owes, UndoEntry.owedBy] using h
    rw [UndoEntry.worth, if_pos howes]
    exact ⟨rfl, .inl howes⟩

/-- The entry holds the debt of `o` on `s` or nothing. -/
def UndoEntry.Holds (e : UndoEntry) (o : Owner) (s : Nat) : Prop :=
  e.owes o s = true ∨ e.pid = 0

theorem UndoEntry.Holds.owes_ne (h : e.Holds o s)
    (hne : ¬(o' = o ∧ s' = s)) : e.owes o' s' = false := by
  rcases h with howes | hfree
  · exact Bool.eq_false_iff.mpr fun hother => hne ((owes_iff howes).mp hother)
  · exact owes_free hfree

/-! ## One call -/

/-- What saturation cuts off a call. -/
def cut (undo : List UndoEntry) (o : Owner) (s : Nat) (delta : Int) : Int :=
  match undo.find? fun e => e.owes o s with
  | some e => saturate (e.adjust + delta) - (e.adjust + delta)
  | none => 0

theorem recordUndo_split (h : recordUndo o s delta undo = some undo') :
    (undo' = undo ∧ delta + cut undo o s delta = 0) ∨
      ∃ before e e' after, undo = before ++ e :: after ∧ undo' = before ++ e' :: after ∧
        e.Holds o s ∧ e'.Holds o s ∧ e'.worth o s = e.worth o s + delta + cut undo o s delta ∧
        (e'.owes o s = true → e.owes o s = true ∨ ∀ b ∈ undo, b.owes o s = false) := by
  unfold recordUndo at h
  split at h
  · next found hfound =>
    cases h
    obtain ⟨before, e, after, rfl, rfl, he, hbefore⟩ := updateFirst_split hfound
    have hcut : cut (before ++ e :: after) o s delta =
        saturate (e.adjust + delta) - (e.adjust + delta) := by
      rw [cut, find?_split (p := fun e : UndoEntry => e.owes o s) he hbefore]
    obtain ⟨hworth, hholds⟩ : (e.add delta).worth o s = saturate (e.adjust + delta) ∧
        ((e.add delta).owes o s = true ∨ (e.add delta).pid = 0) := worth_add he
    refine .inr ⟨before, e, e.add delta, after, rfl, rfl, .inl he, hholds, ?_, fun _ => .inl he⟩
    rw [hworth, hcut, UndoEntry.worth, if_pos he]
    ring
  · next hnone =>
    have hcut : cut undo o s delta = 0 := by
      rw [cut, List.find?_eq_none.mpr fun e he => by simp [updateFirst_eq_none.mp hnone e he]]
    split at h
    · next hzero =>
      cases h
      exact .inl ⟨rfl, by rw [hcut, hzero]; rfl⟩
    obtain ⟨before, e, after, rfl, rfl, he, -⟩ := updateFirst_split h
    have hfree : e.pid = 0 := by simpa using he
    refine .inr ⟨before, e, o.entry s delta, after, rfl, rfl, .inr hfree, .inl owes_entry, ?_,
      fun _ => .inr (updateFirst_eq_none.mp hnone)⟩
    rw [hcut, UndoEntry.worth, UndoEntry.worth, if_pos owes_entry, owes_free hfree]
    simp [Owner.entry]

theorem recordUndo_debt (h : recordUndo o s delta undo = some undo') (o' : Owner) (s' : Nat) :
    debt undo' o' s' =
      debt undo o' s' + if o' = o ∧ s' = s then delta + cut undo o s delta else 0 := by
  rcases recordUndo_split h with ⟨rfl, hzero⟩ | ⟨before, e, e', after, rfl, rfl, he, he', hworth, -⟩
  · rw [hzero, ite_self, add_zero]
  rw [debt_append, debt_append, debt_cons, debt_cons]
  by_cases hsame : o' = o ∧ s' = s
  · obtain ⟨rfl, rfl⟩ := hsame
    have hworth' : (if e'.owes o' s' then e'.adjust else 0) =
        (if e.owes o' s' then e.adjust else 0) + delta +
          cut (before ++ e :: after) o' s' delta := hworth
    rw [hworth']
    simp only [and_self, if_true]
    ring
  · rw [he.owes_ne hsame, he'.owes_ne hsame, if_neg hsame]
    simp

/-! ## Sequences of calls -/

/-- A call whose error is dropped. -/
def record (o : Owner) (call : Nat × Int) (undo : List UndoEntry) : List UndoEntry :=
  (recordUndo o call.1 call.2 undo).getD undo

def replay (o : Owner) (calls : List (Nat × Int)) (undo : List UndoEntry) : List UndoEntry :=
  calls.foldl (fun undo call => record o call undo) undo

/-- The calls of a sequence that find neither the debt nor a free slot. -/
def missed (o : Owner) : List (Nat × Int) → List UndoEntry → List (Nat × Int)
  | [], _ => []
  | call :: calls, undo =>
    match recordUndo o call.1 call.2 undo with
    | some undo => missed o calls undo
    | none => call :: missed o calls undo

/-- What the calls ask of semaphore `s`. -/
def asked : List (Nat × Int) → Nat → Int
  | [], _ => 0
  | call :: calls, s => (if call.1 = s then call.2 else 0) + asked calls s

/-- No call of the sequence leaves the range of a debt. -/
def Unsaturated (o : Owner) : List (Nat × Int) → List UndoEntry → Prop
  | [], _ => True
  | call :: calls, undo =>
    (∀ e, undo.find? (fun e => e.owes o call.1) = some e →
      I32_MIN ≤ e.adjust + call.2 ∧ e.adjust + call.2 ≤ I32_MAX) ∧
    Unsaturated o calls (record o call undo)

@[simp] theorem replay_nil : replay o [] undo = undo := rfl

@[simp] theorem replay_cons (call : Nat × Int) (calls : List (Nat × Int)) :
    replay o (call :: calls) undo = replay o calls (record o call undo) := rfl

theorem replay_append (xs ys : List (Nat × Int)) :
    replay o (xs ++ ys) undo = replay o ys (replay o xs undo) := List.foldl_append

@[simp] theorem asked_append (xs ys : List (Nat × Int)) (s : Nat) :
    asked (xs ++ ys) s = asked xs s + asked ys s := by
  induction xs with
  | nil => simp [asked]
  | cons call xs ih =>
    rw [List.cons_append, asked, asked, ih]
    ring

variable {x bound : Int}

theorem saturate_of_range (hlow : I32_MIN ≤ x) (hhigh : x ≤ I32_MAX) : saturate x = x := by
  rw [saturate, min_eq_right hhigh, max_eq_right hlow]

theorem cut_eq_zero (h : ∀ e, undo.find? (fun e => e.owes o s) = some e →
      I32_MIN ≤ e.adjust + delta ∧ e.adjust + delta ≤ I32_MAX) : cut undo o s delta = 0 := by
  unfold cut
  split
  · next e he =>
    obtain ⟨hlow, hhigh⟩ := h e he
    rw [saturate_of_range hlow hhigh]
    ring
  · rfl

theorem record_other (call : Nat × Int) (hne : ¬(o' = o ∧ s' = call.1)) :
    debt (record o call undo) o' s' = debt undo o' s' := by
  unfold record
  cases h : recordUndo o call.1 call.2 undo with
  | none => rfl
  | some undo' =>
    rw [Option.getD_some, recordUndo_debt h, if_neg hne]
    ring

theorem replay_other (calls : List (Nat × Int)) (hne : o' ≠ o) :
    debt (replay o calls undo) o' s' = debt undo o' s' := by
  induction calls generalizing undo with
  | nil => rfl
  | cons call calls ih => rw [replay_cons, ih, record_other call fun h => hne h.1]

variable {calls : List (Nat × Int)}

theorem replay_debt (h : Unsaturated o calls undo) (s : Nat) : debt (replay o calls undo) o s =
      debt undo o s + asked calls s - asked (missed o calls undo) s := by
  induction calls generalizing undo with
  | nil => simp [asked, missed]
  | cons call calls ih =>
    obtain ⟨hrange, hrest⟩ := h
    rw [replay_cons, ih hrest, missed]
    cases hcall : recordUndo o call.1 call.2 undo with
    | none =>
      have hsame : record o call undo = undo := by rw [record, hcall, Option.getD_none]
      simp only [hsame, asked]
      ring
    | some undo' =>
      have hnew : record o call undo = undo' := by rw [record, hcall, Option.getD_some]
      simp only [hnew, asked, recordUndo_debt hcall, cut_eq_zero hrange]
      by_cases hs : call.1 = s
      · simp only [hs, and_self, if_true]
        ring
      · simp only [hs, Ne.symm hs, and_false, if_false]
        ring

/-! ## Saturation -/

/-- The most by which one operation changes a debt. -/
def STEP : Int := 32768

variable {call : Nat × Int}

theorem record_find_ne (hne : call.1 ≠ s) :
    (record o call undo).find? (fun e => e.owes o s) = undo.find? fun e => e.owes o s := by
  unfold record recordUndo
  split
  · next undo' h =>
    rw [Option.getD_some]
    refine find?_update_ne h (fun e he => ?_) fun e he => ?_
    · exact Bool.eq_false_iff.mpr fun hother => hne ((owes_iff he).mp hother).2.symm
    · exact UndoEntry.Holds.owes_ne (worth_add he).2 fun hsame => hne hsame.2.symm
  split
  · rfl
  · cases h : updateFirst (fun e => e.pid == 0) (fun _ => o.entry call.1 call.2) undo with
    | none => rfl
    | some undo' =>
      rw [Option.getD_some]
      refine find?_update_ne h (fun e he => owes_free (by simpa using he)) fun e _ => ?_
      exact Bool.eq_false_iff.mpr fun hother => hne ((owes_iff owes_entry).mp hother).2.symm

theorem record_find (h : undo.find? (fun e => e.owes o s) = some e)
    (hne : saturate (e.adjust + delta) ≠ 0) :
    (record o (s, delta) undo).find? (fun e => e.owes o s) = some (e.add delta) ∧
      debt (record o (s, delta) undo) o s =
        debt undo o s + delta + (saturate (e.adjust + delta) - (e.adjust + delta)) := by
  have howes : e.owes o s = true := by simpa using List.find?_some h
  obtain ⟨before, after, hsplit, hbefore, hupdate⟩ :=
    updateFirst_of_find? (UndoEntry.add delta) h
  have hrecord : recordUndo o s delta undo = some (before ++ e.add delta :: after) := by
    rw [recordUndo, hupdate]
  have hadd : (e.add delta).owes o s = true := by
    simpa [UndoEntry.add, hne, UndoEntry.owes, UndoEntry.owedBy] using howes
  constructor
  · rw [record, hrecord, Option.getD_some]
    exact find?_split (p := fun e : UndoEntry => e.owes o s) hadd hbefore
  · rw [record, hrecord, Option.getD_some, recordUndo_debt hrecord, if_pos ⟨rfl, rfl⟩, cut, h]
    ring

/-- The entries of a pair are worth at most `bound`. -/
def Small (undo : List UndoEntry) (o : Owner) (s : Nat) (bound : Int) : Prop :=
  ∀ e ∈ undo, e.owes o s = true → -bound ≤ e.adjust ∧ e.adjust ≤ bound

theorem saturate_bounds (hlow : -bound ≤ x) (hhigh : x ≤ bound)
    (hpos : 0 ≤ bound) : -bound ≤ saturate x ∧ saturate x ≤ bound := by
  unfold saturate I32_MIN I32_MAX
  omega

theorem Small.record (h : Small undo o s bound) (hpos : 0 ≤ bound) (hlow : -STEP ≤ call.2)
    (hhigh : call.2 ≤ STEP) : Small (record o call undo) o s (bound + STEP) := by
  have hweak : Small undo o s (bound + STEP) := by
    intro e he howes
    obtain ⟨hl, hu⟩ := h e he howes
    unfold STEP
    omega
  unfold Semaphore.record
  cases hcall : recordUndo o call.1 call.2 undo with
  | none => exact hweak
  | some undo' =>
    rw [Option.getD_some]
    unfold recordUndo at hcall
    split at hcall
    · next found hfound =>
      cases hcall
      obtain ⟨before, e, after, rfl, rfl, he, -⟩ := updateFirst_split hfound
      intro b hb howes
      rcases List.mem_append.mp hb with hb | hb
      · exact hweak b (by simp [hb]) howes
      rcases List.mem_cons.mp hb with rfl | hb
      · by_cases hs : call.1 = s
        · obtain ⟨hl, hu⟩ := h e (by simp) (hs ▸ he)
          exact saturate_bounds (x := e.adjust + call.2) (by unfold STEP at *; omega)
            (by unfold STEP at *; omega) (by unfold STEP; omega)
        · rw [UndoEntry.Holds.owes_ne (worth_add he).2 fun hsame => hs hsame.2.symm] at howes
          cases howes
      · exact hweak b (by simp [hb]) howes
    · split at hcall
      · cases hcall
        exact hweak
      · obtain ⟨before, e, after, rfl, rfl, -, -⟩ := updateFirst_split hcall
        intro b hb howes
        rcases List.mem_append.mp hb with hb | hb
        · exact hweak b (by simp [hb]) howes
        rcases List.mem_cons.mp hb with rfl | hb
        · simp only [Owner.entry]
          omega
        · exact hweak b (by simp [hb]) howes

theorem Small.replay (h : Small undo o s bound) (hpos : 0 ≤ bound)
    (hsteps : ∀ call ∈ calls, -STEP ≤ call.2 ∧ call.2 ≤ STEP) :
    Small (replay o calls undo) o s (bound + STEP * calls.length) := by
  induction calls generalizing undo bound with
  | nil => simpa using h
  | cons call calls ih =>
    obtain ⟨hlow, hhigh⟩ := hsteps call (by simp)
    have hrest := ih (h.record hpos hlow hhigh) (by unfold STEP; omega)
      fun c hc => hsteps c (by simp [hc])
    rw [replay_cons]
    rwa [show bound + STEP * ((call :: calls).length : Int) =
      bound + STEP + STEP * (calls.length : Int) by push_cast [List.length_cons]; ring]

theorem small_of_missed (hsteps : ∀ call ∈ calls, -STEP ≤ call.2 ∧ call.2 ≤ STEP)
    (hmissed : call ∈ missed o calls undo) (hs : call.1 = s) :
    Small (replay o calls undo) o s (STEP * calls.length) := by
  induction calls generalizing undo with
  | nil => cases hmissed
  | cons c calls ih =>
    have hrest : ∀ call ∈ calls, -STEP ≤ call.2 ∧ call.2 ≤ STEP :=
      fun c' hc => hsteps c' (by simp [hc])
    have hgrow : ∀ {undo : List UndoEntry}, Small undo o s (STEP * calls.length) →
        Small undo o s (STEP * ((c :: calls).length : Int)) := by
      intro undo hsmall e he howes
      obtain ⟨hl, hu⟩ := hsmall e he howes
      push_cast [List.length_cons]
      unfold STEP at *
      omega
    rw [missed] at hmissed
    rw [replay_cons]
    cases hcall : recordUndo o c.1 c.2 undo with
    | some undo' =>
      simp only [hcall] at hmissed
      have hnew : record o c undo = undo' := by rw [record, hcall, Option.getD_some]
      exact hgrow (hnew ▸ ih hrest hmissed)
    | none =>
      simp only [hcall] at hmissed
      have hsame : record o c undo = undo := by rw [record, hcall, Option.getD_none]
      rw [hsame]
      rcases List.mem_cons.mp hmissed with rfl | hmissed
      · have hnone : Small undo o s 0 := by
          intro e he howes
          unfold recordUndo at hcall
          split at hcall
          · cases hcall
          · next hnone =>
            rw [← hs, updateFirst_eq_none.mp hnone e he] at howes
            cases howes
        have hsmall := hnone.replay le_rfl hrest
        rw [zero_add] at hsmall
        exact hgrow hsmall
      · exact hgrow (ih hrest hmissed)

theorem asked_eq_zero (h : ∀ call ∈ calls, call.1 ≠ s) : asked calls s = 0 := by
  induction calls with
  | nil => rfl
  | cons call calls ih =>
    rw [asked, if_neg (h call (by simp)), ih fun c hc => h c (by simp [hc])]
    rfl

theorem replay_far {sign : Int} (hsign : sign = 1 ∨ sign = -1) (hlength : calls.length ≤ 2 * SEMOPM)
    (hsteps : ∀ call ∈ calls, -STEP ≤ call.2 ∧ call.2 ≤ STEP)
    (hfind : undo.find? (fun e => e.owes o s) = some e)
    (hfar : STEP * calls.length < sign * e.adjust) :
    sign * (debt (replay o calls undo) o s - debt undo o s - asked calls s) ≤ 0 := by
  induction calls generalizing undo e with
  | nil => simp [asked]
  | cons call calls ih =>
    obtain ⟨hlow, hhigh⟩ := hsteps call (by simp)
    have hrest : ∀ call ∈ calls, -STEP ≤ call.2 ∧ call.2 ≤ STEP :=
      fun c hc => hsteps c (by simp [hc])
    have hlength' : calls.length ≤ 2 * SEMOPM := by
      rw [List.length_cons] at hlength
      omega
    rw [List.length_cons] at hfar hlength
    push_cast at hfar
    rw [replay_cons, asked]
    by_cases hs : call.1 = s
    · have hfar' : STEP * calls.length < sign * saturate (e.adjust + call.2) := by
        unfold STEP at *
        unfold SEMOPM at *
        unfold saturate I32_MIN I32_MAX
        rcases hsign with rfl | rfl <;> omega
      have hne : saturate (e.adjust + call.2) ≠ 0 := by
        intro hzero
        rw [hzero, mul_zero] at hfar'
        unfold STEP at hfar'
        omega
      obtain ⟨hfind', hdebt⟩ := record_find hfind hne
      have hcall : call = (s, call.2) := by rw [← hs]
      rw [← hcall] at hfind' hdebt
      have hkept := ih hlength' hrest hfind' hfar'
      have hcut : sign * (saturate (e.adjust + call.2) - (e.adjust + call.2)) ≤ 0 := by
        unfold STEP at *
        unfold saturate I32_MIN I32_MAX
        rcases hsign with rfl | rfl <;> omega
      rw [hdebt] at hkept
      rw [if_pos hs]
      rcases hsign with rfl | rfl <;> omega
    · have hfar' : STEP * calls.length < sign * e.adjust := by
        unfold STEP at *
        omega
      have hkept := ih hlength' hrest ((record_find_ne hs).trans hfind) hfar'
      rw [record_other call fun hsame => hs hsame.2.symm] at hkept
      rw [if_neg hs, zero_add]
      exact hkept

theorem exists_saturating (h : ¬Unsaturated o calls undo) :
    ∃ before call after e, calls = before ++ call :: after ∧ Unsaturated o before undo ∧
      (replay o before undo).find? (fun e => e.owes o call.1) = some e ∧
      ¬(I32_MIN ≤ e.adjust + call.2 ∧ e.adjust + call.2 ≤ I32_MAX) := by
  induction calls generalizing undo with
  | nil => exact absurd trivial h
  | cons call calls ih =>
    by_cases hcall : ∀ e, undo.find? (fun e => e.owes o call.1) = some e →
        I32_MIN ≤ e.adjust + call.2 ∧ e.adjust + call.2 ≤ I32_MAX
    · obtain ⟨before, c, after, e, rfl, hbefore, hfind, hout⟩ :=
        ih fun hrest => h ⟨hcall, hrest⟩
      exact ⟨call :: before, c, after, e, rfl, ⟨hcall, hbefore⟩, hfind, hout⟩
    · push Not at hcall
      obtain ⟨e, hfind, hout⟩ := hcall
      exact ⟨[], call, calls, e, rfl, trivial, hfind, fun hin => absurd hin.2 (not_le.mpr (hout hin.1))⟩

theorem replay_ne (h : ¬Unsaturated o calls undo) (hlength : calls.length ≤ 2 * SEMOPM)
    (hsteps : ∀ call ∈ calls, -STEP ≤ call.2 ∧ call.2 ≤ STEP) :
    ∃ s, debt (replay o calls undo) o s ≠ debt undo o s + asked calls s := by
  obtain ⟨before, call, after, e, rfl, hbefore, hfind, hout⟩ := exists_saturating h
  rw [List.length_append, List.length_cons] at hlength
  obtain ⟨hlow, hhigh⟩ := hsteps call (by simp)
  -- No earlier call on the pair was missed, or its debt would still be small.
  have hmissed : asked (missed o before undo) call.1 = 0 := by
    refine asked_eq_zero fun c hc hs => ?_
    have hsmall := small_of_missed (fun c' hc' => hsteps c' (by simp [hc'])) hc hs
    obtain ⟨hl, hu⟩ := hsmall e (List.mem_of_find?_eq_some hfind) (by simpa using List.find?_some hfind)
    unfold STEP SEMOPM I32_MIN I32_MAX at *
    omega
  have hearlier := replay_debt hbefore call.1
  rw [hmissed, sub_zero] at hearlier
  have hside : ∃ sign : Int, (sign = 1 ∨ sign = -1) ∧
      STEP * after.length < sign * saturate (e.adjust + call.2) ∧
      sign * (saturate (e.adjust + call.2) - (e.adjust + call.2)) < 0 := by
    by_cases hup : I32_MAX < e.adjust + call.2
    · refine ⟨1, .inl rfl, ?_, ?_⟩ <;> unfold STEP SEMOPM saturate I32_MIN I32_MAX at * <;> omega
    · refine ⟨-1, .inr rfl, ?_, ?_⟩ <;> unfold STEP SEMOPM saturate I32_MIN I32_MAX at * <;> omega
  obtain ⟨sign, hsign, hfar, hcut⟩ := hside
  have hne : saturate (e.adjust + call.2) ≠ 0 := by
    intro hzero
    rw [hzero, mul_zero] at hfar
    unfold STEP at hfar
    omega
  obtain ⟨hfind', hdebt⟩ := record_find hfind hne
  have hlater := replay_far hsign (by omega) (fun c hc => hsteps c (by simp [hc])) hfind' hfar
  refine ⟨call.1, fun heq => ?_⟩
  rw [replay_append, replay_cons, asked_append, asked, if_pos rfl] at heq
  rw [heq, hdebt, hearlier] at hlater
  rcases hsign with rfl | rfl <;> omega

end Kinakaze.Semaphore
