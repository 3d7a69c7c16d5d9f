import Kinakaze.Tmpfs.Contents

/-!
# Writing a file of a volume

* `loses`: the write stops at a page whose memory cannot be committed, behind its first
  one, and publishes a state without the slot that was taken for it.
-/

namespace Kinakaze.Tmpfs

open Library

/-- Among these pages, which a write stores in this order, the commit of one behind the
first fails, with room for it and after no other failure. -/
def loses (commits : Nat → Bool) (pages : Table Nat) : Bool → Nat → List Nat → Bool
  | _, _, [] => false
  | first, room, page :: rest =>
    if pages[page]?.isSome then loses commits pages false room rest
    else if room = 0 then false
    else if commits page then loses commits pages false (room - 1) rest
    else !first

variable {commits : Nat → Bool}

theorem loses_congr {pages pages' : Table Nat} {rest : List Nat}
    (hsame : ∀ page ∈ rest, pages[page]? = pages'[page]?) (first : Bool) (room : Nat) :
    loses commits pages first room rest = loses commits pages' first room rest := by
  induction rest generalizing first room with
  | nil => rfl
  | cons page rest ih =>
    have hrest := fun first room => ih (fun q hq => hsame q (List.mem_cons_of_mem _ hq)) first room
    rw [loses, loses, hsame page List.mem_cons_self, hrest, hrest]

/-- The pages of the bytes from `start` to before `stop`. -/
def pageRange (start stop : Nat) : List Nat :=
  List.range' (start / PAGE) (pageCeil stop - start / PAGE)

theorem le_pageCeil (length : Nat) : length ≤ pageCeil length * PAGE := by
  have hmod := Nat.mod_lt (length + (PAGE - 1)) (show 0 < PAGE by decide)
  have hdiv := Nat.div_add_mod' (length + (PAGE - 1)) PAGE
  unfold pageCeil
  omega

theorem pageRange_cons {start stop : Nat} (h : start < stop) : pageRange start stop =
      start / PAGE :: List.range' (start / PAGE + 1) (pageCeil stop - (start / PAGE + 1)) := by
  have hle := le_pageCeil stop
  have hdiv := Nat.div_add_mod' start PAGE
  have hless : start / PAGE < pageCeil stop := by
    refine Nat.lt_of_mul_lt_mul_right (a := PAGE) ?_
    omega
  rw [pageRange, show pageCeil stop - start / PAGE = pageCeil stop - (start / PAGE + 1) + 1 by omega,
    List.range'_succ]

/-- What a part of a write does: the bytes from `done` to before `done'` are stored. -/
structure Wrote (position : Nat) (buffer : List (BitVec 8)) (id : Nat) (w : Work) (n : Node)
    (done : Nat) (w' : Work) (n' : Node) (done' : Nat) : Prop where
  same : Same w.state w'.state
  held : Held w'.state (w'.state.slotWith id n')
  lower : done ≤ done'
  upper : done' ≤ buffer.length
  node : n' = { n with pages := n'.pages }
  bytes : ∀ id' i, content (w'.state.slotWith id n') w'.view id' i =
    if id' = id ∧ position + done ≤ i ∧ i < position + done' then buffer.getD (i - position) 0
    else content (w.state.slotWith id n) w.view id' i

section Parts

variable {position : Nat} {buffer : List (BitVec 8)} {id : Nat} {w : Work} {n : Node} {done x : Nat}

theorem Wrote.refl (h : Held w.state (w.state.slotWith id n))
    (hdone : done ≤ buffer.length) : Wrote position buffer id w n done w n done where
  same := Same.refl _
  held := h
  lower := Nat.le_refl _
  upper := hdone
  node := rfl
  bytes id' i := by
    rw [if_neg]
    rintro ⟨-, hlow, hhigh⟩
    omega

theorem Wrote.trans {w' w'' : Work} {n' n'' : Node} {done' done'' : Nat}
    (h : Wrote position buffer id w n done w' n' done')
    (h' : Wrote position buffer id w' n' done' w'' n'' done'') :
    Wrote position buffer id w n done w'' n'' done'' where
  same := h.same.trans h'.same
  held := h'.held
  lower := Nat.le_trans h.lower h'.lower
  upper := h'.upper
  node := by
    rw [h'.node, h.node]
  bytes id' i := by
    have hlower := h.lower
    have hlower' := h'.lower
    rw [h'.bytes, h.bytes]
    by_cases hid : id' = id
    · by_cases hnew : position + done' ≤ i ∧ i < position + done''
      · rw [if_pos ⟨hid, hnew⟩, if_pos ⟨hid, by omega, by omega⟩]
      · rw [if_neg fun hall => hnew hall.2]
        by_cases hold : position + done ≤ i ∧ i < position + done'
        · rw [if_pos ⟨hid, hold⟩, if_pos ⟨hid, by omega, by omega⟩]
        · rw [if_neg fun hall => hold hall.2, if_neg]
          rintro ⟨-, hlow, hhigh⟩
          omega
    · rw [if_neg fun hall => hid hall.1, if_neg fun hall => hid hall.1,
        if_neg fun hall => hid hall.1]

theorem wrote_part (h : Held w.state (w.state.slotWith id n)) (hless : done < buffer.length)
    (hx : n.pages[(position + done) / PAGE]? = some x) :
    Wrote position buffer id w n done
      { w with
        view := store w.view (x * PAGE + (position + done) % PAGE) ((buffer.drop done).take
          (min (PAGE - (position + done) % PAGE) (buffer.length - done))) } n
      (done + min (PAGE - (position + done) % PAGE) (buffer.length - done)) := by
  have hmod := Nat.mod_lt (position + done) (show 0 < PAGE by decide)
  have hdiv := Nat.div_add_mod' (position + done) PAGE
  have hlength : ((buffer.drop done).take
      (min (PAGE - (position + done) % PAGE) (buffer.length - done))).length =
        min (PAGE - (position + done) % PAGE) (buffer.length - done) := by
    rw [List.length_take, List.length_drop]
    omega
  have hslot : w.state.slotWith id n (id, (position + done) / PAGE) = some x := by
    rw [State.slotWith, if_pos rfl]
    exact hx
  refine ⟨Same.refl _, h, by omega, by omega, rfl, fun id' i => ?_⟩
  refine (content_store h.slots hslot (by rw [hlength]; omega) id' i).trans ?_
  rw [hlength, hdiv]
  refine ite_congr (propext (and_congr_right fun _ => by omega)) (fun hin => ?_) fun _ => rfl
  obtain ⟨-, hlow, hhigh⟩ := hin
  rw [List.getD_eq_getElem?_getD, List.getD_eq_getElem?_getD, List.getElem?_take,
    if_pos (by omega), List.getElem?_drop]
  congr 2
  omega

theorem slotWith_page {s s' : State} (h : Same s s') (id page x : Nat) (n : Node) :
    s'.slotWith id { n with pages := n.pages.insert page x } =
      fun b => if b = (id, page) then some x else s.slotWith id n b := by
  funext b
  rw [State.slotWith]
  by_cases hid : b.1 = id
  · rw [if_pos hid, get_insert, State.slotWith, if_pos hid]
    by_cases hpage : page = b.2
    · rw [if_pos hpage, if_pos (Prod.ext hid hpage.symm)]
    · rw [if_neg hpage, if_neg]
      intro heq
      exact hpage (congrArg Prod.snd heq).symm
  · rw [if_neg hid, if_neg, State.slotWith, if_neg hid, State.slot, State.slot, h.nodes]
    intro heq
    exact hid (congrArg Prod.fst heq)

theorem wrote_slot {page : Nat} {w' : Work} (hdone : done ≤ buffer.length)
    (h : Held w.state (w.state.slotWith id n)) (hsame : Same w.state w'.state)
    (hnone : n.pages[page]? = none)
    (hheld : Held w'.state fun b => if b = (id, page) then some x else w.state.slotWith id n b)
    (hx : ∀ b y, w.state.slotWith id n b = some y → x ≠ y)
    (hview : w'.view = zero w.view (x * PAGE) PAGE) :
    Wrote position buffer id w n done w' { n with pages := n.pages.insert page x } done where
  same := hsame
  held := by
    rw [slotWith_page hsame]
    exact hheld
  lower := Nat.le_refl _
  upper := hdone
  node := rfl
  bytes id' i := by
    rw [slotWith_page hsame, hview, if_neg]
    · refine content_take h.slots ?_ hx id' i
      rw [State.slotWith, if_pos rfl]
      exact hnone
    · rintro ⟨-, hlow, hhigh⟩
      omega

end Parts

/-- How much room the quota leaves, in pages. -/
def State.room (s : State) : Nat := s.limit / PAGE - s.used

/-- The loop of a write that loses no slot stores what it reports, or fails with its first
byte. -/
theorem writeLoop_spec {position : Nat} {buffer : List (BitVec 8)} {id : Nat} (k : Nat) {w : Work}
    {n : Node} {done : Nat} (hk : buffer.length - done = k)
    (h : Held w.state (w.state.slotWith id n)) (hdone : done ≤ buffer.length)
    (hloses : done < buffer.length → loses commits n.pages (decide (done = 0)) w.state.room
        (pageRange (position + done) (position + buffer.length)) = false) :
    (∃ w' n' done', writeLoop commits position buffer w n done = (w', .ok (n', done')) ∧
        Wrote position buffer id w n done w' n' done') ∨
      done = 0 ∧ ∃ w' e, writeLoop commits position buffer w n done = (w', .error e) ∧
        w'.view = w.view := by
  induction k using Nat.strongRecOn generalizing w n done with
  | _ k ih =>
    rw [writeLoop]
    by_cases hless : done < buffer.length
    · rw [if_pos hless]
      have hmod := Nat.mod_lt (position + done) (show 0 < PAGE by decide)
      have hdiv := Nat.div_add_mod' (position + done) PAGE
      have hlost := hloses hless
      rw [pageRange_cons (by omega), loses] at hlost
      -- Behind a stored page the loop goes on with the next one.
      have hnext : ∀ (w₁ : Work) (n₁ : Node) (x : Nat),
          Wrote position buffer id w n done w₁ n₁ done →
          n₁.pages[(position + done) / PAGE]? = some x →
          loses commits n₁.pages false w₁.state.room (List.range' ((position + done) / PAGE + 1)
            (pageCeil (position + buffer.length) - ((position + done) / PAGE + 1))) = false →
          ∃ w' n' done', writeLoop commits position buffer
              { w₁ with
                view := store w₁.view (x * PAGE + (position + done) % PAGE) ((buffer.drop done).take
                    (min (PAGE - (position + done) % PAGE) (buffer.length - done))) } n₁
              (done + min (PAGE - (position + done) % PAGE) (buffer.length - done)) =
                (w', .ok (n', done')) ∧ Wrote position buffer id w n done w' n' done' := by
        intro w₁ n₁ x hwrote hx hrest
        have hpart := wrote_part hwrote.held hless hx
        have hpos : 0 < min (PAGE - (position + done) % PAGE) (buffer.length - done) := by omega
        rcases ih _ (by omega) rfl hpart.held hpart.upper (fun hmore => by
            have hend : position + (done + min (PAGE - (position + done) % PAGE)
                (buffer.length - done)) = ((position + done) / PAGE + 1) * PAGE := by
              rw [Nat.succ_mul]
              omega
            rw [decide_eq_false (by omega), pageRange, hend,
              Nat.mul_div_cancel _ (show 0 < PAGE by decide)]
            exact hrest) with ⟨w', n', done', heq, hmore⟩ | ⟨hzero, -⟩
        · exact ⟨w', n', done', heq, hwrote.trans (hpart.trans hmore)⟩
        · omega
      cases hx : n.pages[(position + done) / PAGE]? with
      | some x =>
        have hslot : w.state.slotWith id n (id, (position + done) / PAGE) = some x := by
          rw [State.slotWith, if_pos rfl]
          exact hx
        rw [hx, Option.isSome_some, if_pos rfl] at hlost
        dsimp only
        rw [hx]
        dsimp only
        rw [h.page hslot]
        exact .inl (hnext w n x (Wrote.refl h hdone) hx hlost)
      | none =>
        have hslot : w.state.slotWith id n (id, (position + done) / PAGE) = none := by
          rw [State.slotWith, if_pos rfl]
          exact hx
        rw [hx, Option.isSome_none, if_neg Bool.false_ne_true] at hlost
        dsimp only
        rw [hx]
        dsimp only
        rcases allocate_spec h hslot (commits ((position + done) / PAGE)) with
          ⟨x, hok, hcommitted, hroom, hheld, hunmapped, hview, hsame, hused⟩ |
          ⟨e, herror, hview, hcase⟩
        · have hwrote : Wrote position buffer id w n done
              (w.allocate (commits ((position + done) / PAGE))).1
              { n with pages := n.pages.insert ((position + done) / PAGE) x } done :=
            wrote_slot hdone h hsame hx hheld hunmapped hview
          rcases hpair : w.allocate (commits ((position + done) / PAGE)) with ⟨w₁, result⟩
          rw [hpair] at hok hheld hview hsame hused hwrote
          dsimp only at hok hheld hview hsame hused hwrote
          subst hok
          dsimp only
          have hmapped : ({ n with pages := n.pages.insert ((position + done) / PAGE) x } :
              Node).pages[(position + done) / PAGE]? = some x := by
            rw [get_insert, if_pos rfl]
          have hfound : w₁.state.slotWith id
              { n with pages := n.pages.insert ((position + done) / PAGE) x }
              (id, (position + done) / PAGE) = some x := by
            rw [State.slotWith, if_pos rfl]
            exact hmapped
          rw [hwrote.held.page hfound]
          refine .inl (hnext w₁ _ x hwrote hmapped ?_)
          rw [if_neg (by unfold State.room; omega), if_pos hcommitted] at hlost
          have hroom₁ : w₁.state.room = w.state.room - 1 := by
            unfold State.room
            rw [hsame.limit, hused]
            omega
          rw [hroom₁]
          refine (loses_congr (fun page hpage => ?_) _ _).trans hlost
          rw [List.mem_range'_1] at hpage
          rw [get_insert, if_neg (by omega)]
        · rcases hpair : w.allocate (commits ((position + done) / PAGE)) with ⟨w₁, result⟩
          rw [hpair] at herror hview hcase
          dsimp only at herror hview hcase
          subst herror
          dsimp only
          by_cases hzero : done = 0
          · rw [if_pos hzero]
            exact .inr ⟨hzero, w₁, e, rfl, hview⟩
          rw [if_neg hzero]
          rcases hcase with ⟨rfl, -⟩ | ⟨hcommitted, hroom⟩
          · exact .inl ⟨w₁, n, done, rfl, Wrote.refl h hdone⟩
          · rw [if_neg (by unfold State.room; omega), hcommitted,
              if_neg Bool.false_ne_true, decide_eq_false hzero] at hlost
            cases hlost
    · rw [if_neg hless]
      exact .inl ⟨w, n, done, rfl, Wrote.refl h hdone⟩

end Kinakaze.Tmpfs
