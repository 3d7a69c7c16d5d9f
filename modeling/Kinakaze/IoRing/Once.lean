import Kinakaze.IoRing.Ring
import Kinakaze.Library.FirstMatch
import Kinakaze.Library.Run
import Mathlib.Data.List.Range

/-!
# One completion for each submission

* `Inv`: each accepted entry is in one place, and each native request is kept.
-/

namespace Kinakaze.IoRing

open Library

/-! ## Cookies -/

variable {cookie address capacity copied : Nat}

theorem freeCookie_unused {used : Nat → Bool} {first fuel c : Nat}
    (h : freeCookie used first fuel cookie = some c) : used c = false := by
  induction fuel generalizing cookie with
  | zero => cases h
  | succ fuel ih =>
    rw [freeCookie] at h
    split at h
    · dsimp only at h
      split at h
      · cases h
      · exact ih h
    · next hfree =>
      cases h
      exact Bool.not_eq_true _ ▸ hfree

/-! ## The invariant -/

def Request.tag (r : Request) : Nat × Nat := (r.serial, r.user_data)

def CompletionEntry.tag (c : CompletionEntry) : Nat × Nat := (c.serial, c.user_data)

def Cancellation.tag (c : Cancellation) : Nat × Nat := (c.serial, c.user_data)

/-- The accepted entries, wherever they are: in flight or built, done without the native queue,
cancellations, completions that wait and completions that were handed over. -/
def State.tags (s : State) : List (Nat × Nat) :=
  (s.requests.map fun r => r.2.tag) ++ s.localPending.map CompletionEntry.tag ++
    s.cancellations.map Cancellation.tag ++ s.completions.map CompletionEntry.tag ++
    s.delivered.map CompletionEntry.tag

def nativeOf (r : Nat × Request) : Native := ⟨r.1, r.2.file, r.2.buffer, r.2.submitted⟩

/-- The requests that are built and not submitted. -/
def State.built (s : State) : List (Nat × Request) := s.requests.filter fun r => !r.2.submitted

structure Inv (s : State) : Prop where
  cookies : (s.requests.map Prod.fst).Nodup
  native : s.native.Perm (s.requests.map nativeOf)
  once : s.tags.Perm s.accepted
  serials : s.accepted.map Prod.fst = List.range s.accepted.length
  pending : s.pending = s.built.length + s.localPending.length + s.cancellations.length
  capacity : s.pending ≤ s.capacity
  running : s.aborted = false

theorem inv_start (capacity : Nat) : Inv { capacity } :=
  ⟨.nil, .nil, .nil, rfl, rfl, Nat.zero_le _, rfl⟩

variable {s : State}

theorem once_count (h : Inv s) (tag : Nat × Nat) : s.tags.count tag = s.accepted.count tag :=
  List.perm_iff_count.mp h.once tag

theorem serials_snoc {accepted : List (Nat × Nat)}
    (h : accepted.map Prod.fst = List.range accepted.length) (userData : Nat) :
    (accepted ++ [(accepted.length, userData)]).map Prod.fst =
      List.range (accepted ++ [(accepted.length, userData)]).length := by
  rw [List.map_append, h, List.length_append, List.length_singleton, List.range_succ]
  rfl

/-! ## Pushing -/

theorem Inv.acceptDone (h : Inv s) (hroom : s.pending < s.capacity)
    (entry : SubmissionEntry) (result : Int) : Inv (s.accept entry (some result)) where
  cookies := h.cookies
  native := h.native
  once := by
    refine List.perm_iff_count.mpr fun tag => ?_
    have hcount := once_count h tag
    simp only [State.tags, State.accept, Option.toList_some, List.map_append, List.map_cons,
      List.map_nil, List.count_append] at hcount ⊢
    have htag : (⟨s.accepted.length, entry.user_data, result, 0⟩ : CompletionEntry).tag =
        (s.accepted.length, entry.user_data) := rfl
    rw [htag]
    omega
  serials := serials_snoc h.serials _
  pending := by
    have hpending := h.pending
    simp only [State.accept, State.built, Option.toList_some, List.map_cons, List.map_nil,
      List.length_append, List.length_singleton] at hpending ⊢
    omega
  capacity := hroom
  running := h.running

theorem Inv.acceptEmpty (h : Inv s) (hroom : s.pending < s.capacity) (entry : SubmissionEntry) :
    Inv (State.accept { s with localPending := s.localPending ++
      [⟨s.accepted.length, entry.user_data, 0, 0⟩] } entry none) := by
  have hsame : State.accept { s with localPending := s.localPending ++
      [⟨s.accepted.length, entry.user_data, 0, 0⟩] } entry none = s.accept entry (some 0) := by
    simp [State.accept]
  rw [hsame]
  exact h.acceptDone hroom entry 0

variable {request : Request}

theorem Inv.acceptNative (h : Inv s) (hroom : s.pending < s.capacity) (entry : SubmissionEntry)
    (hserial : request.serial = s.accepted.length) (hdata : request.user_data = entry.user_data)
    (hbuilt : request.submitted = false) (hfree : (s.requests.lookup cookie).isSome = false)
    (nextCookie : Nat) :
    Inv (State.accept { s with
      nextCookie
      native := s.native ++ [⟨cookie, request.file, request.buffer, false⟩]
      requests := s.requests ++ [(cookie, request)] } entry none) where
  cookies := by
    have hnew : cookie ∉ s.requests.map Prod.fst := by
      intro hin
      obtain ⟨⟨k, r⟩, hmem, rfl⟩ := List.mem_map.mp hin
      rw [lookup_of_mem h.cookies hmem] at hfree
      cases hfree
    change ((s.requests ++ [(cookie, request)]).map Prod.fst).Nodup
    rw [List.map_append, List.nodup_append]
    refine ⟨h.cookies, by simp, fun a ha b hb heq => hnew ?_⟩
    rw [List.map_singleton, List.mem_singleton] at hb
    rwa [heq, hb] at ha
  native := by
    change (s.native ++ [_]).Perm ((s.requests ++ [(cookie, request)]).map nativeOf)
    rw [List.map_append, List.map_singleton, nativeOf, hbuilt]
    exact h.native.append_right _
  once := by
    refine List.perm_iff_count.mpr fun tag => ?_
    have hcount := once_count h tag
    have htag : request.tag = (s.accepted.length, entry.user_data) := by
      rw [Request.tag, hserial, hdata]
    simp only [State.tags, State.accept, Option.toList_none, List.map_append, List.map_cons,
      List.map_nil, List.count_append, List.append_nil, htag] at hcount ⊢
    omega
  serials := serials_snoc h.serials _
  pending := by
    have hpending := h.pending
    simp only [State.accept, State.built, List.filter_append, List.length_append,
      Option.toList_none, List.map_nil, List.append_nil] at hpending ⊢
    have hone : ([(cookie, request)].filter fun r => !r.2.submitted).length = 1 := by
      simp [hbuilt]
    omega
  capacity := hroom
  running := h.running

theorem prepareEntry_some {entry : SubmissionEntry} {serial : Nat} {answers : PushAnswers}
    (h : prepareEntry entry serial answers = .ok (some request)) :
    request.serial = serial ∧ request.user_data = entry.user_data ∧ request.submitted = false := by
  unfold prepareEntry at h
  split at h
  · cases h
  split at h
  · cases h
  split at h
  · split at h
    · cases h
    · cases hprepared : answers.prepared with
      | error e =>
        rw [hprepared] at h
        cases h
      | ok p =>
        rw [hprepared] at h
        cases h
        exact ⟨rfl, rfl, rfl⟩
  · split at h <;> cases h

section

variable (h : Inv s)
include h

theorem Inv.nextCookie (cookie : Nat) : Inv { s with nextCookie := cookie } :=
  { h with }

theorem inv_push (entry : SubmissionEntry) (answers : PushAnswers) :
    Inv (s.push entry answers).1 := by
  unfold State.push
  split
  · exact h
  · next hroom =>
    rw [ge_iff_le, Nat.not_le] at hroom
    split
    · exact h
    split
    · split
      · exact h
      · refine ⟨h.cookies, h.native, ?_, serials_snoc h.serials _, ?_, hroom, h.running⟩
        · refine List.perm_iff_count.mpr fun tag => ?_
          have hcount := once_count h tag
          simp only [State.tags, List.map_append, List.map_cons, List.map_nil,
            List.count_append, Cancellation.tag] at hcount ⊢
          omega
        · have hpending := h.pending
          simp only [State.built, List.length_append, List.length_singleton] at hpending ⊢
          omega
    split
    · next request hprepared =>
      obtain ⟨hserial, hdata, hbuilt⟩ := prepareEntry_some hprepared
      unfold State.queueNative
      by_cases hempty : request.length = 0 ∧ ¬ request.flush
      · rw [if_pos hempty, hserial, hdata]
        exact h.acceptEmpty hroom entry
      rw [if_neg hempty]
      cases hcookie : freeCookie (fun cookie => (s.requests.lookup cookie).isSome)
          s.nextCookie (2 ^ 64) s.nextCookie with
      | none => exact h.acceptDone hroom entry _
      | some cookie =>
        cases hbuild : answers.build with
        | error e => exact (h.nextCookie ((cookie + 1) % 2 ^ 64)).acceptDone hroom entry _
        | ok u =>
          exact h.acceptNative hroom entry hserial hdata hbuilt (freeCookie_unused hcookie) _
    · exact h.acceptDone hroom entry 0
    · exact h.acceptDone hroom entry _

/-! ## Harvesting -/

theorem Inv.owned {native : Native} (hin : native ∈ s.native) :
    ∃ request, s.requests.lookup native.cookie = some request ∧
      nativeOf (native.cookie, request) = native := by
  obtain ⟨⟨cookie, request⟩, hmem, rfl⟩ := List.mem_map.mp (h.native.subset hin)
  exact ⟨request, lookup_of_mem h.cookies hmem, rfl⟩

theorem Inv.completed {native : Native} (hlookup : s.requests.lookup native.cookie = some request)
    (hnative : nativeOf (native.cookie, request) = native) (hsubmitted : request.submitted = true)
    (result : Int) :
    Inv { s with
      native := s.native.erase native
      requests := s.requests.erase (native.cookie, request)
      completions := s.completions ++ [⟨request.serial, request.user_data, result, 0⟩] } := by
  have hmem := mem_of_lookup hlookup
  have hperm : s.requests.Perm
      ((native.cookie, request) :: s.requests.erase (native.cookie, request)) :=
    List.perm_cons_erase hmem
  refine ⟨?_, ?_, ?_, h.serials, ?_, h.capacity, h.running⟩
  · exact h.cookies.sublist (List.erase_sublist.map Prod.fst)
  · have hcons := h.native.trans (hperm.map nativeOf)
    rw [List.map_cons, hnative] at hcons
    exact (List.cons_perm_iff_perm_erase.mp hcons.symm).2.symm
  · refine List.perm_iff_count.mpr fun tag => ?_
    have hcount := once_count h tag
    have hrequests := List.perm_iff_count.mp (hperm.map fun r => r.2.tag) tag
    have htag : (⟨request.serial, request.user_data, result, 0⟩ : CompletionEntry).tag =
        request.tag := rfl
    simp only [State.tags, List.map_append, List.map_cons, List.map_nil, List.count_append,
      htag] at hcount ⊢
    rw [List.map_cons, List.count_cons] at hrequests
    rw [List.count_singleton]
    dsimp only at hrequests
    omega
  · have hbuilt := (hperm.filter fun r => !r.2.submitted).length_eq
    rw [List.filter_cons_of_neg (by simp [hsubmitted])] at hbuilt
    have hpending := h.pending
    simp only [State.built] at hpending ⊢
    omega

theorem inv_harvest (pops : List Pop) : Inv (s.harvest pops).1 := by
  induction pops generalizing s with
  | nil => exact h
  | cons pop pops ih =>
    cases pop with
    | outOfMemory => exact h
    | failed e => exact h
    | completed pick result =>
      rw [State.harvest]
      cases hpick : s.inFlight[pick]? with
      | none => exact h
      | some native =>
        have hflight := List.mem_of_getElem? hpick
        have hin := (List.mem_filter.mp hflight).1
        obtain ⟨request, hlookup, hnative⟩ := h.owned hin
        have hsubmitted : request.submitted = true := by
          have hflag := (List.mem_filter.mp hflight).2
          rw [← hnative] at hflag
          exact hflag
        dsimp only
        rw [hlookup]
        dsimp only
        rw [hsubmitted]
        exact ih (h.completed hlookup hnative hsubmitted result)

/-! ## Submitting -/

theorem length_unsubmitted :
    (s.native.filter fun native => !native.submitted).length = s.built.length := by
  rw [(h.native.filter fun native => !native.submitted).length_eq, List.filter_map, List.length_map]
  rfl

theorem submit_error {answers : SubmitAnswers} {e : Int}
    (herror : (s.submit answers).2 = .error e) : (s.submit answers).1 = s := by
  unfold State.submit at herror ⊢
  split
  · rfl
  · next hreserved =>
    rw [if_neg hreserved] at herror
    split
    · rfl
    · next hpending =>
      rw [if_neg hpending] at herror
      cases hsubmit : answers.submit with
      | error e => rfl
      | ok u =>
        rw [hsubmit] at herror
        dsimp only at herror
        rw [if_neg (by rw [length_unsubmitted h]; exact fun hne => hne rfl)] at herror
        cases herror

theorem inv_submit (answers : SubmitAnswers) : Inv (s.submit answers).1 := by
  unfold State.submit
  split
  · exact h
  split
  · exact h
  · cases hsubmit : answers.submit with
    | error e => exact h
    | ok u =>
      dsimp only
      rw [if_neg (by rw [length_unsubmitted h]; exact fun hne => hne rfl)]
      refine ⟨?_, ?_, ?_, h.serials, ?_, Nat.zero_le _, h.running⟩
      · rw [List.map_map]
        exact h.cookies
      · have hmap := h.native.map fun native : Native => { native with submitted := true }
        rw [List.map_map] at hmap ⊢
        exact hmap
      · refine List.perm_iff_count.mpr fun tag => ?_
        have hcount := once_count h tag
        have hcancel : ∀ requests, (s.cancellations.map
            (·.complete requests answers.cancels)).map CompletionEntry.tag =
              s.cancellations.map Cancellation.tag := by
          intro requests
          rw [List.map_map]
          rfl
        have hrequests : (s.requests.map fun r => (r.1, { r.2 with submitted := true })).map
            (fun r => r.2.tag) = s.requests.map fun r => r.2.tag := by
          rw [List.map_map]
          rfl
        simp only [State.tags, List.map_append, List.count_append, hcancel, hrequests,
          List.map_nil, List.count_nil] at hcount ⊢
        omega
      · have hnone : (s.requests.map fun r => (r.1, { r.2 with submitted := true })).filter
            (fun r => !r.2.submitted) = [] := by
          rw [List.filter_map, List.map_eq_nil_iff, List.filter_eq_nil_iff]
          intro r _
          simp
        simp only [State.built, hnone]
        rfl

/-! ## Handing over -/

theorem inv_deliver (count : Nat) : Inv (s.deliver count) := by
  refine ⟨h.cookies, h.native, ?_, h.serials, h.pending, h.capacity, h.running⟩
  refine List.perm_iff_count.mpr fun tag => ?_
  have hcount := once_count h tag
  have hsplit : (s.completions.map CompletionEntry.tag).count tag =
      ((s.completions.take count).map CompletionEntry.tag).count tag +
        ((s.completions.drop count).map CompletionEntry.tag).count tag := by
    rw [← List.count_append, ← List.map_append, List.take_append_drop]
  simp only [State.tags, State.deliver, List.map_append, List.count_append] at hcount ⊢
  omega

end

theorem inv_afterSubmit {submitted : State × Except Int Nat} (h : Inv submitted.1)
    (pops : List Pop) : Inv (match submitted with
      | (s, .error e) => (s, (.error e : Except Int Nat))
      | (s, .ok count) =>
        match s.harvest pops with
        | (s, .error e) => (s, .error e)
        | (s, .ok ()) => (s, .ok count)).1 := by
  rcases submitted with ⟨s, e | count⟩
  · exact h
  have hharvest := inv_harvest h pops
  dsimp only at hharvest ⊢
  split
  · next s' e heq =>
    rw [heq] at hharvest
    exact hharvest
  · next s' heq =>
    rw [heq] at hharvest
    exact hharvest

theorem inv_enter (h : Inv s) (toSubmit : Option Nat) (answers : SubmitAnswers)
    (pops : List Pop) : Inv (s.enter toSubmit answers pops).1 := by
  unfold State.enter
  refine inv_afterSubmit ?_ pops
  split
  · exact h
  · split
    · exact h
    · exact inv_submit h answers
  · exact inv_submit h answers

theorem inv_reap (h : Inv s) (length : Nat) (pops : List Pop) : Inv (s.reap length pops).1 := by
  have hharvest := inv_harvest h pops
  unfold State.reap
  split
  · exact h
  split
  · next s' e heq =>
    rw [heq] at hharvest
    exact hharvest
  · next s' heq =>
    rw [heq] at hharvest
    dsimp only
    split
    · exact hharvest
    · exact inv_deliver hharvest _

theorem inv_reapGuest (h : Inv s) (address capacity : Nat) (pops : List Pop)
    (copied : Nat) : Inv (s.reapGuest address capacity pops copied).1 := by
  have hharvest := inv_harvest h pops
  unfold State.reapGuest
  split
  · exact h
  split
  · exact h
  split
  · next s' e heq =>
    rw [heq] at hharvest
    exact hharvest
  · next s' heq =>
    rw [heq] at hharvest
    dsimp only
    split
    · exact hharvest
    · split
      · exact hharvest
      · exact inv_deliver hharvest _

theorem inv_step (h : Inv s) (op : Op) : Inv (s.step op) := by
  unfold State.step
  rw [h.running]
  cases op with
  | push entry answers => exact inv_push h entry answers
  | pushGuest entry answers =>
    cases entry with
    | none => exact h
    | some entry => exact inv_push h entry answers
  | enter toSubmit answers pops => exact inv_enter h toSubmit answers pops
  | wake pops => exact inv_harvest h pops
  | reap length pops => exact inv_reap h length pops
  | reapGuest address capacity pops copied => exact inv_reapGuest h address capacity pops copied

/-! ## The law -/

/-- A call that hands completions over takes those that the guest got whole, from the front. -/
structure HandsOver (harvested : State) (capacity copied : Nat) (s : State) (n : Nat) : Prop where
  delivered : s.delivered = harvested.delivered ++ harvested.completions.take n
  completions : s.completions = harvested.completions.drop n
  whole : ∀ j < min capacity harvested.completions.length, j < n ↔ (j + 1) * entrySize ≤ copied

theorem reapGuest_ok {s' : State} {n : Nat} {pops : List Pop}
    (h : s.reapGuest address capacity pops copied = (s', .ok n)) :
    HandsOver (s.harvest pops).1 capacity copied s' n := by
  unfold State.reapGuest at h
  split at h
  · cases h
  split at h
  · cases h
  split at h
  · cases h
  · next harvested heq =>
    rw [heq]
    dsimp only at h ⊢
    split at h
    · cases h
    split at h
    · cases h
    · cases h
      refine ⟨rfl, rfl, fun j hj => ?_⟩
      simp only [entrySize]
      omega

theorem harvest_delivered (s : State) (pops : List Pop) :
    (s.harvest pops).1.delivered = s.delivered := by
  induction pops generalizing s with
  | nil => rfl
  | cons pop pops ih =>
    cases pop with
    | outOfMemory => rfl
    | failed e => rfl
    | completed pick result =>
      rw [State.harvest]
      split
      · rfl
      split
      · rfl
      · split
        · rfl
        · exact ih _

theorem reapGuest_error {s' : State} {pops : List Pop} {e : Int}
    (h : s.reapGuest address capacity pops copied = (s', .error e)) :
    s'.delivered = s.delivered ∧ (s' = s ∨ s' = (s.harvest pops).1) ∧
      (e = EFAULT → s' = s ∨ (∃ e', (s.harvest pops).2 = .error e') ∨ copied < entrySize) := by
  have hdelivered := harvest_delivered s pops
  unfold State.reapGuest at h
  split at h
  · cases h
    exact ⟨rfl, .inl rfl, fun _ => .inl rfl⟩
  split at h
  · cases h
    exact ⟨rfl, .inl rfl, fun _ => .inl rfl⟩
  split at h
  · next harvested e' heq =>
    rw [heq] at hdelivered ⊢
    cases h
    exact ⟨hdelivered, .inr rfl, fun _ => .inr (.inl ⟨_, rfl⟩)⟩
  · next harvested heq =>
    rw [heq] at hdelivered ⊢
    dsimp only at h
    split at h
    · cases h
      exact ⟨hdelivered, .inr rfl, nofun⟩
    · next hcount =>
      split at h
      · next hnone =>
        cases h
        refine ⟨hdelivered, .inr rfl, fun _ => .inr (.inr ?_)⟩
        simp only [entrySize] at hnone ⊢
        omega
      · cases h

/-- What holds in every state. -/
structure Lawful (s : State) : Prop where
  -- Each accepted entry is in one place, under its own number and data.
  once : s.tags.Perm s.accepted
  serials : (s.accepted.map Prod.fst).Nodup
  -- When nothing is under way, each has its completion.
  settled : s.pending = 0 → s.native = [] →
    ((s.completions ++ s.delivered).map CompletionEntry.tag).Perm s.accepted
  pending : s.pending = s.built.length + s.localPending.length + s.cancellations.length
  capacity : s.pending ≤ s.capacity
  cookies : (s.requests.map Prod.fst).Nodup
  owned : ∀ native ∈ s.native, ∃ request, s.requests.lookup native.cookie = some request ∧
    nativeOf (native.cookie, request) = native
  failedSubmit : ∀ answers e, (s.submit answers).2 = .error e → (s.submit answers).1 = s
  handed : ∀ address capacity pops copied s' n,
    s.reapGuest address capacity pops copied = (s', .ok n) →
      HandsOver (s.harvest pops).1 capacity copied s' n
  kept : ∀ address capacity pops copied s' e,
    s.reapGuest address capacity pops copied = (s', .error e) → s'.delivered = s.delivered ∧
      (s' = s ∨ s' = (s.harvest pops).1) ∧
      (e = EFAULT → s' = s ∨ (∃ e', (s.harvest pops).2 = .error e') ∨ copied < entrySize)
  running : s.aborted = false

theorem Inv.lawful (h : Inv s) : Lawful s where
  once := h.once
  serials := by
    rw [h.serials]
    exact List.nodup_range
  settled hpending hnative := by
    have hrequests : s.requests = [] := by
      have hlength := h.native.length_eq
      rw [hnative, List.length_map] at hlength
      exact List.eq_nil_of_length_eq_zero hlength.symm
    have hsum := h.pending
    have hlocal : s.localPending = [] := List.eq_nil_of_length_eq_zero (by omega)
    have hcancel : s.cancellations = [] := List.eq_nil_of_length_eq_zero (by omega)
    have honce := h.once
    rw [State.tags, hrequests, hlocal, hcancel] at honce
    rw [List.map_append]
    exact honce
  pending := h.pending
  capacity := h.capacity
  cookies := h.cookies
  owned native hin := h.owned hin
  failedSubmit answers e herror := submit_error h herror
  handed address capacity pops copied s' n hreap := reapGuest_ok hreap
  kept address capacity pops copied s' e hreap := reapGuest_error hreap
  running := h.running

/-- Whatever the calls on a ring are, and whatever is answered to them. -/
theorem ring_lawful (capacity : Nat) (ops : List Op) :
    EveryState State.step Lawful { capacity } ops := by
  have hinv : EveryState State.step Inv { capacity } ops :=
    EveryState.of_invariant (fun _ op h => inv_step h op) ops (inv_start capacity)
  exact hinv.mono fun _ h => h.lawful

end Kinakaze.IoRing
