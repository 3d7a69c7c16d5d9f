import Kinakaze.Library.StatefulCall
import Kinakaze.Netlink.Journal

/-!
# What a commit adds to the journal

* `recorded`: the messages of a commit, as a list.
-/

namespace Kinakaze.Netlink

open Library

/-- The messages with the serials after `sequence`. -/
def number : Nat → List (Nat × Bytes) → List Message
  | _, [] => []
  | sequence, (source, bytes) :: rest =>
    ⟨sequence + 1, source, bytes⟩ :: number (sequence + 1) rest

/-- Pushing a row of messages. -/
def pushes : Journal → List (Nat × Bytes) → Except Int Journal
  | j, [] => .ok j
  | j, (source, bytes) :: rest => do
    let j ← j.push bytes source
    pushes j rest

variable {j j' : Journal}

theorem pushes_append {j'' : Journal} {xs ys : List (Nat × Bytes)}
    (hx : pushes j xs = .ok j') (hy : pushes j' ys = .ok j'') : pushes j (xs ++ ys) = .ok j'' := by
  induction xs generalizing j with
  | nil =>
    cases hx
    exact hy
  | cons a rest ih =>
    obtain ⟨source, bytes⟩ := a
    obtain ⟨j₁, hpush, hrest⟩ := bind_ok.mp hx
    rw [List.cons_append, pushes, hpush]
    exact ih hrest

/-! ## The messages of a commit -/

section Record

variable {Link : Type} [DecidableEq Link] (kinds : Links Link)

/-- What `pushLoopback` pushes. -/
def loopbackMessages (id before after : Nat) : Except Int (List Bytes) :=
  if id ≠ 1 ∧ before ≠ after then do
    let payload ← kinds.loopback after
    let bytes ← reply payload
    .ok [bytes]
  else .ok []

/-- What `record` pushes, in order. -/
def recorded (id : Nat) (before : Nat × List Link) (state : Network Link)
    (broadcast : Option (Nat × Bytes)) : Except Int (List (Nat × Bytes)) := do
  let gone ← (goneLinks kinds before.2 state).mapM fun old =>
    (storedLinkReply kinds old).map deleted
  let changed ← (changedLinks kinds before.2 state).mapM (storedLinkReply kinds)
  let loopback ← loopbackMessages kinds id before.1 state.loopbackFlags
  .ok (broadcast.toList ++ (gone ++ (changed ++ loopback)).map (0, ·))

theorem pushAll_ok {α : Type} {message : α → Except Int Bytes} {items : List α}
    (h : pushAll message j items = .ok j') :
    ∃ added, items.mapM message = .ok added ∧ pushes j (added.map (0, ·)) = .ok j' := by
  induction items generalizing j with
  | nil =>
    cases h
    exact ⟨[], rfl, rfl⟩
  | cons a rest ih =>
    obtain ⟨bytes, hbytes, h⟩ := bind_ok.mp h
    obtain ⟨j₁, hpush, h⟩ := bind_ok.mp h
    obtain ⟨added, hadded, hpushes⟩ := ih h
    refine ⟨bytes :: added, ?_, ?_⟩
    · rw [List.mapM_cons, hbytes, hadded]
      rfl
    · rw [List.map_cons, pushes, hpush]
      exact hpushes

theorem mapM_ok {α : Type} {message : α → Except Int Bytes} {P : Bytes → Prop}
    (hmessage : ∀ a bytes, message a = .ok bytes → P bytes) {items : List α} {added : List Bytes}
    (h : items.mapM message = .ok added) : ∀ bytes ∈ added, P bytes := by
  induction items generalizing added with
  | nil =>
    cases h
    exact nofun
  | cons a rest ih =>
    rw [List.mapM_cons] at h
    obtain ⟨bytes, hbytes, h⟩ := bind_ok.mp h
    obtain ⟨added', hadded, h⟩ := bind_ok.mp h
    cases h
    intro b hb
    rcases List.mem_cons.mp hb with rfl | hb
    · exact hmessage a b hbytes
    · exact ih hadded b hb

/-- A message that may stand in the journal. -/
def Recordable (m : Nat × Bytes) : Prop := m.1 < 2 ^ 32 ∧ framed m.1 m.2 = true

theorem storedLinkReply_front {link : Link} {bytes : Bytes}
    (h : storedLinkReply kinds link = .ok bytes) :
    NLMSG_HEADER_LEN ≤ bytes.length ∧ ofLe (bytes.take 4) = bytes.length := by
  obtain ⟨payload, -, hreply⟩ := bind_ok.mp h
  exact reply_front hreply

variable {added : List (Nat × Bytes)} {before : Nat × List Link} {broadcast : Option (Nat × Bytes)}

theorem recorded_recordable {id : Nat} {state : Network Link}
    (hbroadcast : ∀ m ∈ broadcast, 0 < m.1 ∧ m.1 < 2 ^ 32)
    (h : recorded kinds id before state broadcast = .ok added) : ∀ m ∈ added, Recordable m := by
  obtain ⟨gone, hgone, h⟩ := bind_ok.mp h
  obtain ⟨changed, hchanged, h⟩ := bind_ok.mp h
  obtain ⟨loopback, hloopback, h⟩ := bind_ok.mp h
  cases h
  have hzero : ∀ bytes : Bytes, NLMSG_HEADER_LEN ≤ bytes.length ∧
      ofLe (bytes.take 4) = bytes.length → Recordable (0, bytes) :=
    fun bytes hfront => ⟨Nat.two_pow_pos 32, framed_of_front hfront.1 hfront.2 0⟩
  intro m hm
  rcases List.mem_append.mp hm with hm | hm
  · obtain ⟨hpos, hlt⟩ := hbroadcast m (Option.mem_toList.mp hm)
    refine ⟨hlt, ?_⟩
    have hne : (m.1 != 0) = true := bne_iff_ne.mpr (by omega)
    rw [framed, hne, Bool.true_or]
  obtain ⟨bytes, hbytes, rfl⟩ := List.mem_map.mp hm
  refine hzero bytes ?_
  rcases List.mem_append.mp hbytes with hbytes | hbytes
  · refine mapM_ok (P := fun bytes => NLMSG_HEADER_LEN ≤ bytes.length ∧
      ofLe (bytes.take 4) = bytes.length) (fun old message hmessage => ?_) hgone bytes hbytes
    cases hreply : storedLinkReply kinds old with
    | error e =>
      rw [hreply] at hmessage
      cases hmessage
    | ok message' =>
      rw [hreply] at hmessage
      cases hmessage
      have hfront := storedLinkReply_front kinds hreply
      exact deleted_front hfront.1 hfront.2
  · rcases List.mem_append.mp hbytes with hbytes | hbytes
    · exact mapM_ok (fun link message hmessage => storedLinkReply_front kinds hmessage) hchanged
        bytes hbytes
    · unfold loopbackMessages at hloopback
      split at hloopback
      · obtain ⟨payload, -, hloopback⟩ := bind_ok.mp hloopback
        obtain ⟨message, hreply, hloopback⟩ := bind_ok.mp hloopback
        cases hloopback
        rw [List.mem_singleton.mp hbytes]
        exact reply_front hreply
      · cases hloopback
        cases hbytes

theorem pushes_sequence
    (h : pushes j added = .ok j') : j'.sequence = j.sequence + added.length := by
  induction added generalizing j with
  | nil =>
    cases h
    rfl
  | cons a rest ih =>
    obtain ⟨source, bytes⟩ := a
    obtain ⟨j₁, hpush, h⟩ := bind_ok.mp h
    have hnext : j₁.sequence = j.sequence + 1 := by
      unfold Journal.push at hpush
      split at hpush
      · cases hpush
      split at hpush
      · cases hpush
      · cases hpush
        rfl
    rw [ih h, hnext, List.length_cons]
    omega

omit [DecidableEq Link] in
theorem pushLoopback_ok {id before after : Nat}
    (h : pushLoopback kinds id before after j = .ok j') :
    ∃ added, loopbackMessages kinds id before after = .ok added ∧
      pushes j (added.map (0, ·)) = .ok j' := by
  unfold pushLoopback at h
  unfold loopbackMessages
  split at h
  · next hcase =>
    obtain ⟨payload, hpayload, h⟩ := bind_ok.mp h
    obtain ⟨bytes, hreply, h⟩ := bind_ok.mp h
    refine ⟨[bytes], ?_, ?_⟩
    · rw [if_pos hcase, hpayload]
      show (reply payload >>= fun bytes => Except.ok [bytes]) = _
      rw [hreply]
      rfl
    · rw [List.map_cons, List.map_nil, pushes, h]
      rfl
  · next hcase =>
    cases h
    exact ⟨[], by rw [if_neg hcase], rfl⟩

theorem record_ok {id : Nat} {state state' : Network Link} {name : Option Nat}
    (h : record kinds id before state broadcast = .ok (state', name)) :
    ∃ added, recorded kinds id before state broadcast = .ok added ∧
      pushes state.notifications added = .ok state'.notifications ∧
      name = if added = [] then none else some (state.notifications.sequence + 1) := by
  obtain ⟨j₁, hbroadcast, h⟩ := bind_ok.mp h
  obtain ⟨j₂, hgone, h⟩ := bind_ok.mp h
  obtain ⟨j₃, hchanged, h⟩ := bind_ok.mp h
  obtain ⟨j₄, hloopback, h⟩ := bind_ok.mp h
  obtain ⟨gone, hgoneOk, hgonePushes⟩ := pushAll_ok hgone
  obtain ⟨changed, hchangedOk, hchangedPushes⟩ := pushAll_ok hchanged
  have hfirst : pushes state.notifications broadcast.toList = .ok j₁ := by
    cases broadcast with
    | none => exact hbroadcast
    | some m =>
      obtain ⟨source, bytes⟩ := m
      rw [Option.toList_some, pushes]
      have hpush : state.notifications.push bytes source = .ok j₁ := hbroadcast
      rw [hpush]
      rfl
  obtain ⟨loopback, hloopbackOk, hloopbackPushes⟩ := pushLoopback_ok kinds hloopback
  have hpushes : pushes state.notifications
      (broadcast.toList ++ (gone ++ (changed ++ loopback)).map (0, ·)) = .ok j₄ := by
    rw [List.map_append, List.map_append]
    exact pushes_append hfirst (pushes_append hgonePushes
      (pushes_append hchangedPushes hloopbackPushes))
  refine ⟨broadcast.toList ++ (gone ++ (changed ++ loopback)).map (0, ·), ?_, ?_⟩
  · rw [recorded, hgoneOk]
    show ((changedLinks kinds before.2 state).mapM (storedLinkReply kinds) >>= _) = _
    rw [hchangedOk]
    show (loopbackMessages kinds id before.1 state.loopbackFlags >>= _) = _
    rw [hloopbackOk]
    rfl
  · have hsequence := pushes_sequence hpushes
    split at h
    · next heq =>
      cases h
      refine ⟨hpushes, ?_⟩
      rw [if_pos]
      exact List.length_eq_zero_iff.mp (by omega)
    · next hne =>
      split at h
      · cases h
      · cases h
        refine ⟨hpushes, ?_⟩
        rw [if_neg]
        intro hnil
        rw [hnil] at hsequence
        exact hne hsequence

end Record

/-! ## The log -/

/-- The journal is the end of the log, which holds every message ever recorded. -/
structure Logged (j : Journal) (log : List Message) : Prop where
  sound : j.Sound
  length : log.length = j.sequence
  serials : log.map Message.serial = List.range' 1 log.length
  «end» : j.messages <:+ log

theorem logged_start : Logged {} [] := ⟨sound_empty, rfl, rfl, List.suffix_refl _⟩

theorem Logged.push {log : List Message} (h : Logged j log) {bytes : Bytes} {source : Nat}
    (hrecordable : Recordable (source, bytes)) (hok : j.push bytes source = .ok j') :
    Logged j' (log ++ [⟨j.sequence + 1, source, bytes⟩]) := by
  refine ⟨h.sound.push hrecordable.1 hrecordable.2 hok, ?_, ?_, ?_⟩
  all_goals
    unfold Journal.push at hok
    split at hok
    · cases hok
    split at hok
    · cases hok
    cases hok
  · rw [List.length_append, List.length_singleton, h.length]
  · rw [List.map_append, List.length_append, List.length_singleton, List.range'_concat, h.serials,
      h.length]
    simp [Nat.add_comm]
  · obtain ⟨front, hfront⟩ := h.end
    refine (trim_suffix _).trans ⟨front, ?_⟩
    rw [← List.append_assoc, hfront]

theorem Logged.pushes {log : List Message} {added : List (Nat × Bytes)} (h : Logged j log)
    (hrecordable : ∀ m ∈ added, Recordable m)
    (hok : pushes j added = .ok j') : Logged j' (log ++ number j.sequence added) := by
  induction added generalizing j log with
  | nil =>
    cases hok
    rw [number, List.append_nil]
    exact h
  | cons a rest ih =>
    obtain ⟨source, bytes⟩ := a
    obtain ⟨j₁, hpush, hok⟩ := bind_ok.mp hok
    have hnext := h.push (hrecordable _ List.mem_cons_self) hpush
    have hsequence : j₁.sequence = j.sequence + 1 := by
      rw [← hnext.length, List.length_append, List.length_singleton, h.length]
    have hrest := ih hnext (fun m hm => hrecordable m (List.mem_cons_of_mem _ hm)) hok
    rw [hsequence, List.append_assoc] at hrest
    exact hrest

end Kinakaze.Netlink
