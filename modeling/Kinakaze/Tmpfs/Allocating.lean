import Kinakaze.Tmpfs.Changing

/-!
# Pages ahead of a write, names and holders

* `fallocate_spec`: pages that are allocated ahead change no byte; when an allocation fails,
  what it did to the view shows in no file.
* `unlink_spec`, `hold_spec`, `create_spec`: operations that move no slot.
-/

namespace Kinakaze.Tmpfs

open Library

variable {w : Work}

/-- The loop of `fallocate` changes no byte of any file. -/
theorem allocatePages_spec (commits : Nat → Bool) {id : Nat} (pages : List Nat) {n : Node}
    (h : Held w.state (w.state.slotWith id n)) :
    (∃ w' n', allocatePages commits pages w n = (w', .ok n') ∧ Wrote 0 [] id w n 0 w' n' 0) ∨
      ∃ w' e, allocatePages commits pages w n = (w', .error e) ∧
        ∀ id' i, content (w.state.slotWith id n) w'.view id' i =
          content (w.state.slotWith id n) w.view id' i := by
  induction pages generalizing w n with
  | nil => exact .inl ⟨w, n, rfl, Wrote.refl h (Nat.le_refl _)⟩
  | cons page rest ih =>
    rw [allocatePages]
    cases hx : n.pages[page]? with
    | some x =>
      rw [Option.isSome_some, if_pos rfl]
      exact ih h
    | none =>
      rw [Option.isSome_none, if_neg Bool.false_ne_true]
      have hslot : w.state.slotWith id n (id, page) = none := by
        rw [State.slotWith, if_pos rfl]
        exact hx
      rcases allocate_spec h hslot (commits page) with
        ⟨x, hok, -, -, hheld, hunmapped, hview, hsame, -⟩ | ⟨e, herror, hview, -⟩
      · have hwrote : Wrote 0 [] id w n 0 (w.allocate (commits page)).1
            { n with pages := n.pages.insert page x } 0 :=
          wrote_slot (Nat.le_refl _) h hsame hx hheld hunmapped hview
        rcases hpair : w.allocate (commits page) with ⟨w₁, result⟩
        rw [hpair] at hok hwrote hsame
        dsimp only at hok hwrote hsame
        subst hok
        dsimp only
        rcases ih hwrote.held with ⟨w', n', heq, hrest⟩ | ⟨w', e, heq, hrest⟩
        · exact .inl ⟨w', n', heq, hwrote.trans hrest⟩
        refine .inr ⟨w', e, heq, fun id' i => ?_⟩
        have hbytes := hwrote.bytes id' i
        rw [if_neg (by omega)] at hbytes
        rw [← hbytes, ← hrest id' i]
        -- What was mapped before still is, and to the same slot.
        unfold content
        rw [slotWith_page hsame]
        beta_reduce
        by_cases heq : (id', i / PAGE) = (id, page)
        · rw [if_pos heq, heq, hslot]
          have hnew := hrest id' i
          rw [hbytes] at hnew
          unfold content at hnew
          rw [slotWith_page hsame] at hnew
          beta_reduce at hnew
          rw [if_pos heq, heq, hslot] at hnew
          exact hnew.symm
        · rw [if_neg heq]
      · rcases hpair : w.allocate (commits page) with ⟨w₁, result⟩
        rw [hpair] at herror hview
        dsimp only at herror hview
        subst herror
        dsimp only
        exact .inr ⟨w₁, e, rfl, fun id' i => by rw [hview]⟩

section

variable (h : Held w.state w.state.slot)
include h

theorem fallocate_spec (commits : Nat → Bool) (keepSize : Bool) (id offset length : Nat) :
    (∃ w', w.fallocate commits keepSize id offset length = (w', .ok ()) ∧
        Published w w' id fun f => f.fallocate keepSize (offset + length)) ∨
      ∃ w' e, w.fallocate commits keepSize id offset length = (w', .error e) ∧
        ∀ id' i, content w.state.slot w'.view id' i = content w.state.slot w.view id' i := by
  unfold Work.fallocate
  split
  · exact .inr ⟨w, EOVERFLOW, rfl, fun _ _ => rfl⟩
  · cases hn : w.state.nodes[id]? with
    | none => exact .inr ⟨w, ENOENT, rfl, fun _ _ => rfl⟩
    | some n =>
      dsimp only
      by_cases hreg : n.isReg = true
      · rw [hreg, Bool.not_true, if_neg Bool.false_ne_true]
        have hheld : Held w.state (w.state.slotWith id n) := by
          rw [slotWith_self hn]
          exact h
        rcases allocatePages_spec commits (List.range' (offset / PAGE)
          (pageCeil (offset + length) - offset / PAGE)) hheld with
          ⟨w', n', heq, hwrote⟩ | ⟨w', e, heq, hview⟩
        · rw [heq]
          dsimp only
          generalize hm : (if keepSize then n' else
            { n' with size := max n'.size (offset + length) }) = m
          have hpages : m.pages = n'.pages := by
            rw [← hm]
            split <;> rfl
          have hbytes : ∀ id' i, content (w'.state.slotWith id m) w'.view id' i =
              content w.state.slot w.view id' i := fun id' i => by
            rw [slotWith_congr hpages, ← slotWith_self hn]
            exact (hwrote.bytes id' i).trans
              (if_neg fun hall => absurd hall.2.1 (Nat.not_le.mpr hall.2.2))
          refine .inl ⟨_, rfl, published_insert hn ?_ hwrote.same.next hwrote.same.nodes ?_ (fun i => ?_)
            fun id' _ i => hbytes id' i⟩
          · rw [slotWith_congr hpages]
            exact hwrote.held
          · rw [← hm, show n' = { n with pages := n'.pages } from hwrote.node]
            cases keepSize <;> rfl
          · rw [hbytes]
            cases keepSize <;> rfl
        · rw [heq]
          refine .inr ⟨w', e, rfl, fun id' i => ?_⟩
          have hsame := hview id' i
          rwa [slotWith_self hn] at hsame
      · rw [Bool.not_eq_true] at hreg
        rw [hreg, Bool.not_false, if_pos rfl]
        exact .inr ⟨w, EISDIR, rfl, fun _ _ => rfl⟩

/-! ## Operations that move no slot -/

theorem published_same {id : Nat} {n n' : Node}
    (hn : w.state.nodes[id]? = some n) (hpages : n'.pages = n.pages) (hsize : n'.size = n.size) :
    Published w { w with state := { w.state with nodes := w.state.nodes.insert id n' } } id
      fun f => f := by
  have hslots : w.state.slotWith id n' = w.state.slot := by
    rw [← slotWith_self hn, slotWith_congr hpages]
  exact published_insert hn (by rw [hslots]; exact h) rfl rfl hsize
    (fun i => by rw [hslots]; rfl) fun id' _ i => by rw [hslots]

theorem unlink_spec (id : Nat) : (∃ w', w.unlink id = (w', .ok ()) ∧ Published w w' id fun f => f) ∨
      ∃ w' e, w.unlink id = (w', .error e) ∧ w'.view = w.view := by
  unfold Work.unlink
  cases hn : w.state.nodes[id]? with
  | none => exact .inr ⟨w, ENOENT, rfl, rfl⟩
  | some n =>
    dsimp only
    split
    · exact .inr ⟨w, EISDIR, rfl, rfl⟩
    · exact .inl ⟨_, rfl, published_same h hn rfl rfl⟩

theorem hold_spec (id : Nat) (opens mappings : List Nat) :
    (∃ w', w.hold id opens mappings = (w', .ok ()) ∧ Published w w' id fun f => f) ∨
      ∃ w' e, w.hold id opens mappings = (w', .error e) ∧ w'.view = w.view := by
  unfold Work.hold
  cases hn : w.state.nodes[id]? with
  | none => exact .inr ⟨w, ENOENT, rfl, rfl⟩
  | some n => exact .inl ⟨_, rfl, published_same h hn rfl rfl⟩

theorem create_spec (hfresh : w.state.nodes[w.state.next]? = none) (mode : BitVec 32) :
    (∃ w', w.create mode = (w', .ok ()) ∧ Held w'.state w'.state.slot ∧
        w'.state.next = w.state.next + 1 ∧ w'.view = w.view ∧
        w'.state.nodes = w.state.nodes.insert w.state.next { mode, links := 1 } ∧
        w'.state.slot = w.state.slot) ∨
      ∃ w' e, w.create mode = (w', .error e) ∧ w'.view = w.view := by
  unfold Work.create
  split
  · have hslots : State.slot { w.state with
        next := w.state.next + 1
        nodes := w.state.nodes.insert w.state.next { mode, links := 1 } } = w.state.slot := by
      funext a
      show (w.state.nodes.insert w.state.next { mode, links := 1 } : Table Node)[a.1]?.bind _ = _
      rw [get_insert, State.slot]
      split
      · next heq =>
        rw [← heq, hfresh, Option.bind_some]
        exact Std.ExtTreeMap.getElem?_empty
      · rfl
    refine .inl ⟨_, rfl, ?_, rfl, rfl, rfl, hslots⟩
    rw [hslots]
    exact { h with }
  · exact .inr ⟨w, ENOSPC, rfl, rfl⟩

end

end Kinakaze.Tmpfs
