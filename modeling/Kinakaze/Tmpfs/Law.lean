import Kinakaze.Tmpfs.Reading

/-!
# A volume over its whole life

* `Inv`: the slots are parted, and every file that is held holds it.
-/

namespace Kinakaze.Tmpfs

open Library

/-- A volume with its history: what the files hold by the results of the calls, and which
descriptions and mappings are gone. -/
structure Sys where
  vol : Volume
  files : Nat → File := fun _ => {}
  gone : List Nat := []

namespace Sys

inductive Event
  | write (id : Nat) (position : Option Nat) (buffer : List (BitVec 8)) (commits : Nat → Bool)
  | truncate (id length : Nat) (revoked : Except Int Unit)
  | fallocate (id : Nat) (keepSize : Bool) (offset length : Nat) (commits : Nat → Bool)
  | unlink (id : Nat)
  | create (mode : BitVec 32)
  | hold (id : Nat) (opens mappings : List Nat)
  | collect
  | exit (object : Nat)

def alive (s : Sys) (object : Nat) : Bool := !s.gone.contains object

/-- The history after a call that succeeded. -/
def record (s : Sys) (id : Nat) (file : File → File) : Nat → File :=
  fun k => if k = id then file (s.files id) else s.files k

def step (s : Sys) : Event → Sys
  | .write id position buffer commits =>
    match s.vol.change s.alive fun w => w.write commits id position buffer with
    | (vol, .ok done) =>
      { s with
        vol
        files := s.record id fun f => f.write (position.getD f.size) (buffer.take done) }
    | (vol, .error _) => { s with vol }
  | .truncate id length revoked =>
    match s.vol.change s.alive fun w => w.truncate revoked id length with
    | (vol, .ok _) => { s with vol, files := s.record id fun f => f.truncate length }
    | (vol, .error _) => { s with vol }
  | .fallocate id keepSize offset length commits =>
    match s.vol.change s.alive fun w => w.fallocate commits keepSize id offset length with
    | (vol, .ok _) =>
      { s with vol, files := s.record id fun f => f.fallocate keepSize (offset + length) }
    | (vol, .error _) => { s with vol }
  | .unlink id => { s with vol := (s.vol.change s.alive fun w => w.unlink id).1 }
  | .create mode =>
    match s.vol.change s.alive fun w => w.create mode with
    | (vol, .ok _) => { s with vol, files := s.record s.vol.state.next fun _ => {} }
    | (vol, .error _) => { s with vol }
  | .hold id opens mappings =>
    { s with vol := (s.vol.change s.alive fun w => w.hold id opens mappings).1 }
  | .collect => { s with vol := (s.vol.change s.alive fun w => (w, (.ok () : Except Int Unit))).1 }
  | .exit object => { s with gone := object :: s.gone }

/-- A new volume, with its root directory. -/
def start (limit : Nat) (view : Nat → BitVec 8) : Sys where
  vol :=
    { state :=
        { limit
          capacity := (max limit PAGE + 65535) / 65536 * 65536
          next := 2
          nodes := (∅ : Table Node).insert 1 { mode := S_IFDIR ||| 0o1777, links := 2 } }
      view }

/-! ## The invariant -/

structure Inv (s : Sys) : Prop where
  held : Held s.vol.state s.vol.state.slot
  fresh : ∀ (id : Nat) (n : Node), s.vol.state.nodes[id]? = some n → id < s.vol.state.next
  files : ∀ (id : Nat) (n : Node), s.vol.state.nodes[id]? = some n → n.doomed s.alive = false →
    fileOf s.vol.state s.vol.view id n = s.files id

variable {s : Sys}

/-- After collecting, every file holds what it ought to. -/
theorem Inv.collected (h : s.Inv) :
    Held (s.vol.state.collect s.alive) (s.vol.state.collect s.alive).slot ∧
      (s.vol.state.collect s.alive).next = s.vol.state.next ∧
      (∀ (id : Nat) (n : Node), (s.vol.state.collect s.alive).nodes[id]? = some n →
        id < s.vol.state.next ∧ fileOf (s.vol.state.collect s.alive) s.vol.view id n = s.files id) ∧
      ∀ (id : Nat) (n : Node), s.vol.state.nodes[id]? = some n → n.doomed s.alive = false →
        ∀ (view : Nat → BitVec 8) (i : Nat), content (s.vol.state.collect s.alive).slot view id i =
          content s.vol.state.slot view id i := by
  obtain ⟨hheld, hnext, hnodes⟩ := collect_spec h.held s.alive
  have hcontent : ∀ (id : Nat) (n : Node), s.vol.state.nodes[id]? = some n →
      n.doomed s.alive = false → ∀ (view : Nat → BitVec 8) (i : Nat),
        content (s.vol.state.collect s.alive).slot view id i =
          content s.vol.state.slot view id i := by
    intro id n hn hdoomed view i
    have hkept := (hnodes id _).mpr ⟨n, hn, hdoomed, rfl⟩
    unfold content
    rw [State.slot, State.slot, hkept, hn]
    rfl
  refine ⟨hheld, hnext, fun id n' hn' => ?_, hcontent⟩
  obtain ⟨n, hn, hdoomed, rfl⟩ := (hnodes id n').mp hn'
  refine ⟨h.fresh id n hn, ?_⟩
  rw [← h.files id n hn hdoomed]
  exact File.ext rfl (funext fun i => hcontent id n hn hdoomed s.vol.view i)

theorem Inv.failed (h : s.Inv) {view : Nat → BitVec 8}
    (hview : ∀ id i, content (s.vol.state.collect s.alive).slot view id i =
      content (s.vol.state.collect s.alive).slot s.vol.view id i) :
    Inv { s with vol := ⟨s.vol.state, view⟩ } where
  held := h.held
  fresh := h.fresh
  files id n hn hdoomed := by
    rw [← h.files id n hn hdoomed]
    have hcontent := h.collected.2.2.2 id n hn hdoomed
    refine File.ext rfl (funext fun i => ?_)
    show content s.vol.state.slot view id i = content s.vol.state.slot s.vol.view id i
    rw [← hcontent, ← hcontent, hview]

theorem Inv.published (h : s.Inv) {w' : Work} {id : Nat} {file : File → File}
    (hpublished : Published ⟨s.vol.state.collect s.alive, s.vol.view⟩ w' id file) :
    Inv { s with vol := ⟨w'.state, w'.view⟩, files := s.record id file } := by
  obtain ⟨-, hnext, hfiles, -⟩ := h.collected
  obtain ⟨n, n', hn, hnodes, hfile⟩ := hpublished.node
  dsimp only at hn hnodes hfile
  have hnode : ∀ k : Nat, w'.state.nodes[k]? =
      if id = k then some n' else (s.vol.state.collect s.alive).nodes[k]? := fun k => by
    rw [hnodes, get_insert]
  refine ⟨hpublished.held, fun k m hm => ?_, fun k m hm _ => ?_⟩
  · show k < w'.state.next
    rw [hpublished.next]
    show k < (s.vol.state.collect s.alive).next
    rw [hnext]
    have hm' := (hnode k).symm.trans hm
    split at hm'
    · next heq => exact heq ▸ (hfiles id n hn).1
    · exact (hfiles k m hm').1
  · have hm' := (hnode k).symm.trans hm
    show fileOf w'.state w'.view k m = if k = id then file (s.files id) else s.files k
    by_cases heq : k = id
    · rw [if_pos heq.symm] at hm'
      cases hm'
      rw [if_pos heq, heq, hfile, (hfiles id n hn).2]
    · rw [if_neg (Ne.symm heq)] at hm'
      rw [if_neg heq, ← (hfiles k m hm').2]
      exact File.ext rfl (funext fun i => hpublished.others k heq i)

theorem Inv.publishedSame (h : s.Inv) {w' : Work} {id : Nat}
    (hpublished : Published ⟨s.vol.state.collect s.alive, s.vol.view⟩ w' id fun f => f) :
    Inv { s with vol := ⟨w'.state, w'.view⟩ } := by
  have hinv := h.published hpublished
  have hsame : (s.record id fun f => f) = s.files := by
    funext k
    unfold record
    split
    · next heq => rw [heq]
    · rfl
  rw [hsame] at hinv
  exact hinv

theorem doomed_mono {alive alive' : Nat → Bool} {n : Node}
    (h : ∀ object, alive' object = true → alive object = true) (hdoomed : n.doomed alive = true) :
    n.doomed alive' = true := by
  have hempty : ∀ l : List Nat, (l.filter alive).isEmpty = true → (l.filter alive').isEmpty = true := by
    intro l hl
    rw [List.isEmpty_iff, List.filter_eq_nil_iff] at hl ⊢
    exact fun object hobject halive => hl object hobject (h object halive)
  unfold Node.doomed Node.dead Node.retain at hdoomed ⊢
  rw [Bool.and_eq_true, Bool.and_eq_true] at hdoomed ⊢
  exact ⟨⟨hdoomed.1.1, hempty _ hdoomed.1.2⟩, hempty _ hdoomed.2⟩

theorem step_inv (h : s.Inv) {event : Event}
    (hloses : ∀ id position buffer commits, event = .write id position buffer commits →
      losesWrite (s.vol.state.collect s.alive) commits id position buffer.length = false) :
    (s.step event).Inv := by
  obtain ⟨hheld, hnext, hfiles, -⟩ := h.collected
  cases event with
  | write id position buffer commits =>
    unfold step Volume.change
    dsimp only
    rcases write_spec (w := ⟨s.vol.state.collect s.alive, s.vol.view⟩) hheld
      (hloses id position buffer commits rfl) with
      ⟨w', done, n, heq, hn, -, hpublished⟩ | ⟨w', e, heq, hview⟩
    · rw [heq]
      have hsize : n.size = (s.files id).size := by
        rw [← (hfiles id n hn).2]
        rfl
      have hinv := h.published hpublished
      have hsame : (s.record id fun f => f.write (position.getD n.size) (buffer.take done)) =
          s.record id fun f => f.write (position.getD f.size) (buffer.take done) := by
        unfold record
        dsimp only
        rw [hsize]
      rw [hsame] at hinv
      exact hinv
    · rw [heq]
      exact h.failed fun id i => by rw [hview]
  | truncate id length revoked =>
    unfold step Volume.change
    dsimp only
    rcases truncate_spec (w := ⟨s.vol.state.collect s.alive, s.vol.view⟩) hheld revoked id length
      with ⟨w', heq, hpublished⟩ | ⟨w', e, heq, hview⟩
    · rw [heq]
      exact h.published hpublished
    · rw [heq]
      exact h.failed fun id i => by rw [hview]
  | fallocate id keepSize offset length commits =>
    unfold step Volume.change
    dsimp only
    rcases fallocate_spec (w := ⟨s.vol.state.collect s.alive, s.vol.view⟩) hheld commits keepSize
      id offset length with ⟨w', heq, hpublished⟩ | ⟨w', e, heq, hview⟩
    · rw [heq]
      exact h.published hpublished
    · rw [heq]
      exact h.failed hview
  | unlink id =>
    unfold step Volume.change
    dsimp only
    rcases unlink_spec (w := ⟨s.vol.state.collect s.alive, s.vol.view⟩) hheld id with
      ⟨w', heq, hpublished⟩ | ⟨w', e, heq, hview⟩
    · rw [heq]
      exact h.publishedSame hpublished
    · rw [heq]
      exact h.failed fun id i => by rw [hview]
  | create mode =>
    unfold step Volume.change
    dsimp only
    have hfresh : (s.vol.state.collect s.alive).nodes[(s.vol.state.collect s.alive).next]? =
        none := by
      cases hn : (s.vol.state.collect s.alive).nodes[(s.vol.state.collect s.alive).next]? with
      | none => rfl
      | some n =>
        have hless := (hfiles _ n hn).1
        rw [hnext] at hless
        exact absurd hless (Nat.lt_irrefl _)
    rcases create_spec (w := ⟨s.vol.state.collect s.alive, s.vol.view⟩) hheld hfresh mode with
      ⟨w', heq, hheld', hnext', hview, hnodes, hslots⟩ | ⟨w', e, heq, hview⟩
    · rw [heq]
      dsimp only at hnext' hview hnodes hslots
      rw [hnext] at hnext' hnodes hfresh
      have hnode : ∀ k : Nat, w'.state.nodes[k]? = if s.vol.state.next = k then
          some { mode, links := 1 } else (s.vol.state.collect s.alive).nodes[k]? := fun k => by
        rw [hnodes, get_insert]
      refine ⟨hheld', fun k m hm => ?_, fun k m hm _ => ?_⟩
      · show k < w'.state.next
        have hm' := (hnode k).symm.trans hm
        split at hm'
        · omega
        · have := (hfiles k m hm').1
          omega
      · have hm' := (hnode k).symm.trans hm
        show fileOf w'.state w'.view k m = if k = s.vol.state.next then {} else s.files k
        by_cases heq : k = s.vol.state.next
        · rw [if_pos heq.symm] at hm'
          cases hm'
          rw [if_pos heq, heq]
          refine File.ext rfl (funext fun i => ?_)
          show content w'.state.slot w'.view _ i = 0
          rw [hslots, content, State.slot, hfresh]
          rfl
        · rw [if_neg (Ne.symm heq)] at hm'
          rw [if_neg heq, ← (hfiles k m hm').2]
          refine File.ext rfl (funext fun i => ?_)
          show content w'.state.slot w'.view k i = _
          rw [hslots, hview]
          rfl
    · rw [heq]
      exact h.failed fun id i => by rw [hview]
  | hold id opens mappings =>
    unfold step Volume.change
    dsimp only
    rcases hold_spec (w := ⟨s.vol.state.collect s.alive, s.vol.view⟩) hheld id opens mappings with
      ⟨w', heq, hpublished⟩ | ⟨w', e, heq, hview⟩
    · rw [heq]
      exact h.publishedSame hpublished
    · rw [heq]
      exact h.failed fun id i => by rw [hview]
  | collect =>
    exact
      { held := hheld
        fresh := fun id n hn => by
          show id < (s.vol.state.collect s.alive).next
          rw [hnext]
          exact (hfiles id n hn).1
        files := fun id n hn _ => (hfiles id n hn).2 }
  | exit object =>
    exact
      { held := h.held
        fresh := h.fresh
        -- Who was gone stays gone.
        files := fun id n hn hdoomed => h.files id n hn (by
          rw [← Bool.not_eq_true] at hdoomed ⊢
          refine fun hold => hdoomed (doomed_mono (fun other hother => ?_) hold)
          have hnot : (!(object :: s.gone).contains other) = true := hother
          rw [Bool.not_eq_true', List.contains_cons, Bool.or_eq_false_iff] at hnot
          rw [alive, Bool.not_eq_true']
          exact hnot.2) }

/-! ## Every run -/

theorem inv_start (limit : Nat) (view : Nat → BitVec 8) : (start limit view).Inv := by
  have hnodes : ∀ (id : Nat) (n : Node), (start limit view).vol.state.nodes[id]? = some n →
      id = 1 ∧ n = { mode := S_IFDIR ||| 0o1777, links := 2 } := by
    intro id n hn
    have hn' : ((∅ : Table Node).insert 1 { mode := S_IFDIR ||| 0o1777, links := 2 })[id]? =
      some n := hn
    rw [get_insert] at hn'
    split at hn'
    · next heq =>
      cases hn'
      exact ⟨heq.symm, rfl⟩
    · rw [Std.ExtTreeMap.getElem?_empty] at hn'
      cases hn'
  have hslot : ∀ a, (start limit view).vol.state.slot a = none := by
    intro a
    rw [State.slot, Option.bind_eq_none_iff]
    intro n hn
    rw [(hnodes a.1 n hn).2]
    exact Std.ExtTreeMap.getElem?_empty
  have hunmapped : ∀ {a x}, ¬ (start limit view).vol.state.slot a = some x := by
    intro a x hx
    rw [hslot] at hx
    cases hx
  have hceil : max limit PAGE ≤ (max limit PAGE + 65535) / 65536 * 65536 := by omega
  exact
    { held :=
        { slots :=
            { free_lt := fun x hx => by cases hx
              mapped_lt := fun hx => absurd hx hunmapped
              nodup := List.nodup_nil
              apart := fun hx => absurd hx hunmapped
              injective := fun hx => absurd hx hunmapped
              cover := fun x hx => by cases hx }
          bound := Nat.zero_le _
          limit := Nat.le_trans (Nat.le_max_left _ _) hceil }
      fresh := fun id n hn => by
        rw [(hnodes id n hn).1]
        exact Nat.lt_succ_self 1
      files := fun id n hn _ => by
        rw [(hnodes id n hn).2]
        refine File.ext rfl (funext fun i => ?_)
        show content (start limit view).vol.state.slot view id i = 0
        rw [content, hslot] }

/-- The slots of all pages of all files. -/
def mapped (s : State) : List Nat := s.nodes.toList.flatMap fun entry => valuesOf entry.2.pages

theorem mem_mapped {s : State} {x : Nat} : x ∈ mapped s ↔ ∃ a, s.slot a = some x := by
  rw [mapped, List.mem_flatMap]
  constructor
  · rintro ⟨⟨id, n⟩, hentry, hx⟩
    obtain ⟨page, hpage⟩ := mem_valuesOf.mp hx
    have hn := Std.ExtTreeMap.mem_toList_iff_getElem?_eq_some.mp hentry
    exact ⟨(id, page), by rw [State.slot, hn]; exact hpage⟩
  · rintro ⟨a, ha⟩
    obtain ⟨n, hn, hpage⟩ := slot_some ha
    exact ⟨(a.1, n), Std.ExtTreeMap.mem_toList_iff_getElem?_eq_some.mpr hn,
      mem_valuesOf.mpr ⟨a.2, hpage⟩⟩

theorem nodup_mapped {s : State} (h : Held s s.slot) : (mapped s).Nodup := by
  have hslot : ∀ entry ∈ s.nodes.toList, ∀ p, s.slot (entry.1, p) = entry.2.pages[p]? := by
    intro entry hentry p
    rw [State.slot, Std.ExtTreeMap.mem_toList_iff_getElem?_eq_some.mp hentry, Option.bind_some]
  rw [mapped, List.nodup_flatMap]
  refine ⟨fun entry hentry => nodup_valuesOf fun p q x hp hq => ?_, ?_⟩
  · rw [← hslot entry hentry] at hp hq
    exact congrArg Prod.snd (h.slots.injective hp hq)
  · have hkeys : s.nodes.toList.Pairwise fun a b => a.1 < b.1 :=
      Std.ExtTreeMap.ordered_keys_toList.imp fun hab => Nat.compare_eq_lt.mp hab
    refine hkeys.imp_of_mem fun {a b} ha hb hless x hx hx' => ?_
    obtain ⟨p, hp⟩ := mem_valuesOf.mp hx
    obtain ⟨q, hq⟩ := mem_valuesOf.mp hx'
    rw [← hslot a ha] at hp
    rw [← hslot b hb] at hq
    have hsame := congrArg Prod.fst (h.slots.injective hp hq)
    exact absurd hsame (Nat.ne_of_lt hless)

/-- What a volume promises. -/
structure Lawful (s : Sys) : Prop where
  parted : (s.vol.state.free ++ mapped s.vol.state).Perm (List.range s.vol.state.pageNext)
  used : s.vol.state.used = (mapped s.vol.state).length
  bound : s.vol.state.pageNext ≤ s.vol.state.capacity / PAGE
  read : ∀ optimized id position len,
    match (s.vol.change s.alive fun w => w.read optimized id position len).2 with
    | .ok bytes => bytes = (List.range' position (min len ((s.files id).size - position))).map
        (s.files id).byte
    | .error _ => ∀ n, s.vol.state.nodes[id]? = some n → n.doomed s.alive = false →
        n.mode &&& S_IFMT = S_IFDIR
  data : ∀ (id : Nat) (n : Node), s.vol.state.nodes[id]? = some n → ∀ start,
    match n.seekData start with
    | .ok next => IsLeast {p | start ≤ p ∧ p < n.size ∧ n.mapped p} next
    | .error e => e = ENXIO ∧ ∀ p, start ≤ p → p < n.size → ¬ n.mapped p
  hole : ∀ (id : Nat) (n : Node), s.vol.state.nodes[id]? = some n → ∀ start,
    match n.seekHole start with
    | .ok next => IsLeast {p | start ≤ p ∧ (p = n.size ∨ ¬ n.mapped p)} next ∧ next ≤ n.size
    | .error e => e = ENXIO ∧ n.size ≤ start

theorem Inv.read (h : s.Inv) (optimized : Bool) (id position len : Nat) :
    match (s.vol.change s.alive fun w => w.read optimized id position len).2 with
    | .ok bytes => bytes = (List.range' position (min len ((s.files id).size - position))).map
        (s.files id).byte
    | .error _ => ∀ n, s.vol.state.nodes[id]? = some n → n.doomed s.alive = false →
        n.mode &&& S_IFMT = S_IFDIR := by
  obtain ⟨-, -, hfiles, -⟩ := h.collected
  have hnodes := (collect_spec h.held s.alive).2.2
  unfold Volume.change Work.read
  dsimp only
  cases hn : (s.vol.state.collect s.alive).nodes[id]? with
  | none =>
    intro n hold hdoomed
    have hkept := (hnodes id _).mpr ⟨n, hold, hdoomed, rfl⟩
    rw [hn] at hkept
    cases hkept
  | some n =>
    dsimp only
    by_cases hdir : (n.mode &&& S_IFMT == S_IFDIR) = true
    · rw [if_pos hdir]
      intro old hold hdoomed
      have hkept := (hnodes id _).mpr ⟨old, hold, hdoomed, rfl⟩
      rw [hn] at hkept
      cases hkept
      exact beq_iff_eq.mp hdir
    · rw [if_neg hdir]
      show n.read optimized s.vol.view position (min len (n.size - position)) = _
      rw [read_eq hn optimized, ← (hfiles id n hn).2]
      rfl

theorem Inv.lawful (h : s.Inv) : s.Lawful where
  parted := h.held.slots.perm (nodup_mapped h.held) fun x => mem_mapped
  used := by
    have hlength := (h.held.slots.perm (nodup_mapped h.held) fun x => mem_mapped).length_eq
    rw [List.length_append, List.length_range] at hlength
    unfold State.used
    omega
  bound := h.held.bound
  read := h.read
  data id n _ start := seekData_spec n start
  hole id n _ start := seekHole_spec n start

/-- No write goes on to publish after the memory for a page behind its first one could not
be committed. -/
def Keeps (s : Sys) : Event → Prop
  | .write id position buffer commits =>
    losesWrite (s.vol.state.collect s.alive) commits id position buffer.length = false
  | _ => True

/-- Two bytes over the end of the first page, with memory for the first page only. -/
def lostSlot : List Event :=
  [.create S_IFREG, .write 2 (some 4095) [1, 1] fun page => page == 0]

end Sys

end Kinakaze.Tmpfs
