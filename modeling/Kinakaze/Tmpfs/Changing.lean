import Kinakaze.Tmpfs.Writing

/-!
# The operations on a volume

* `write_spec`, `truncate_spec`, `fallocate_spec`: each operation does to the bytes of its
  file what it is for, and to no other's anything.
-/

namespace Kinakaze.Tmpfs

open Library Std

theorem nodup_valuesOf {t : Table Nat}
    (h : ∀ p q x : Nat, t[p]? = some x → t[q]? = some x → p = q) : (valuesOf t).Nodup := by
  refine (nodup_keys_toList t).of_map.map_on fun a ha b hb heq => ?_
  have ha' := ExtTreeMap.mem_toList_iff_getElem?_eq_some.mp ha
  have hb' := ExtTreeMap.mem_toList_iff_getElem?_eq_some.mp hb
  exact Prod.ext (h a.1 b.1 a.2 ha' (heq ▸ hb')) heq

/-! ## Collecting -/

variable {s : State}

theorem slot_some {a : Nat × Nat} {x : Nat} (h : s.slot a = some x) :
    ∃ n, s.nodes[a.1]? = some n ∧ n.pages[a.2]? = some x := Option.bind_eq_some_iff.mp h

theorem remove_spec (h : Held s s.slot) (id : Nat) :
    Held (s.remove id) (s.remove id).slot ∧ (s.remove id).next = s.next ∧
      ∀ k : Nat, (s.remove id).nodes[k]? = if id = k then none else s.nodes[k]? := by
  unfold State.remove
  cases hn : s.nodes[id]? with
  | none =>
    refine ⟨h, rfl, fun k => ?_⟩
    dsimp only
    by_cases heq : id = k
    · rw [if_pos heq, ← heq, hn]
    · rw [if_neg heq]
  | some n =>
    have hslot : ∀ p, s.slot (id, p) = n.pages[p]? := fun p => by
      rw [State.slot, hn, Option.bind_some]
    have hnew : ∀ a, State.slot { s with
        nodes := s.nodes.erase id, free := s.free ++ valuesOf n.pages } a =
          if id = a.1 then none else s.slot a := by
      intro a
      rw [State.slot, get_erase]
      split <;> rfl
    refine ⟨⟨h.slots.release (fun {a x} ha => ?_) (nodup_valuesOf fun p q x hp hq => ?_)
      fun x => ?_, h.bound, h.limit⟩, rfl, fun k => get_erase _ _ _⟩
    · rw [hnew] at ha
      split at ha
      · cases ha
      · exact ha
    · rw [← hslot] at hp hq
      exact congrArg Prod.snd (h.slots.injective hp hq)
    · rw [mem_valuesOf]
      constructor
      · rintro ⟨p, hp⟩
        exact ⟨(id, p), (hslot p).trans hp, by rw [hnew, if_pos rfl]⟩
      · rintro ⟨a, ha, hnone⟩
        rw [hnew] at hnone
        split at hnone
        · next heq =>
          refine ⟨a.2, ?_⟩
          rw [← hslot, heq]
          exact ha
        · rw [ha] at hnone
          cases hnone

theorem removes_spec (h : Held s s.slot) (ids : List Nat) :
    Held (ids.foldl State.remove s) (ids.foldl State.remove s).slot ∧
      (ids.foldl State.remove s).next = s.next ∧
      ∀ k : Nat, (ids.foldl State.remove s).nodes[k]? = if k ∈ ids then none else s.nodes[k]? := by
  induction ids generalizing s with
  | nil => exact ⟨h, rfl, fun k => by rw [if_neg List.not_mem_nil]; rfl⟩
  | cons id rest ih =>
    obtain ⟨hone, hnext, hnodes⟩ := remove_spec h id
    obtain ⟨hrest, hnextRest, hnodesRest⟩ := ih hone
    refine ⟨hrest, hnextRest.trans hnext, fun k => ?_⟩
    rw [List.foldl_cons, hnodesRest, hnodes]
    by_cases hk : k ∈ rest
    · rw [if_pos hk, if_pos (List.mem_cons_of_mem _ hk)]
    rw [if_neg hk]
    refine ite_congr (propext ?_) (fun _ => rfl) fun _ => rfl
    rw [List.mem_cons, or_iff_left hk]
    exact eq_comm

/-- Nobody that is still there holds the node. -/
def Node.doomed (alive : Nat → Bool) (n : Node) : Bool := (n.retain alive).dead

theorem collect_spec (h : Held s s.slot) (alive : Nat → Bool) :
    Held (s.collect alive) (s.collect alive).slot ∧ (s.collect alive).next = s.next ∧
      (∀ (id : Nat) (n' : Node), (s.collect alive).nodes[id]? = some n' ↔
        ∃ n, s.nodes[id]? = some n ∧ n.doomed alive = false ∧ n' = n.retain alive) := by
  have hretained : ∀ id : Nat, (s.nodes.map fun _ n => n.retain alive)[id]? =
      s.nodes[id]?.map (Node.retain alive) := fun id => get_map _ _ _
  have hsame : State.slot { s with nodes := s.nodes.map fun _ n => n.retain alive } = s.slot := by
    funext a
    rw [State.slot, State.slot, hretained]
    cases s.nodes[a.1]? <;> rfl
  have hheld : Held { s with nodes := s.nodes.map fun _ n => n.retain alive }
      (State.slot { s with nodes := s.nodes.map fun _ n => n.retain alive }) := by
    rw [hsame]
    exact { h with }
  obtain ⟨hall, hnext, hnodes⟩ := removes_spec hheld
    (selectKeys (s.nodes.map fun _ n => n.retain alive) Node.dead)
  refine ⟨hall, hnext, fun id n' => ?_⟩
  have hid := hnodes id
  rw [hretained] at hid
  show (List.foldl State.remove _ _).nodes[id]? = some n' ↔ _
  rw [hid]
  constructor
  · intro hsome
    split at hsome
    · cases hsome
    · next hnot =>
      obtain ⟨n, hn, rfl⟩ := Option.map_eq_some_iff.mp hsome
      refine ⟨n, hn, ?_, rfl⟩
      rw [← Bool.not_eq_true]
      exact fun hdoomed => hnot (mem_selectKeys.mpr
        ⟨n.retain alive, by rw [hretained, hn]; rfl, hdoomed⟩)
  · rintro ⟨n, hn, hdoomed, rfl⟩
    rw [if_neg, hn]
    · rfl
    intro hmem
    obtain ⟨m, hm, hdead⟩ := mem_selectKeys.mp hmem
    rw [hretained, hn] at hm
    cases hm
    rw [Node.doomed, hdead] at hdoomed
    cases hdoomed

/-! ## The files -/

/-- A file as its readers see it.  Bytes beyond the size show when the file grows. -/
@[ext] structure File where
  size : Nat := 0
  byte : Nat → BitVec 8 := fun _ => 0

/-- The file of a node. -/
def fileOf (s : State) (view : Nat → BitVec 8) (id : Nat) (n : Node) : File :=
  ⟨n.size, content s.slot view id⟩

/-- The bytes of a write from `start` on. -/
def File.write (f : File) (start : Nat) (bytes : List (BitVec 8)) : File where
  size := if bytes.length ≠ 0 then max f.size (start + bytes.length) else f.size
  byte i := if start ≤ i ∧ i < start + bytes.length then bytes.getD (i - start) 0 else f.byte i

def File.truncate (f : File) (length : Nat) : File where
  size := length
  byte i := if i < length then f.byte i else 0

def File.fallocate (f : File) (keepSize : Bool) (stop : Nat) : File :=
  if keepSize then f else { f with size := max f.size stop }

/-- The operation published what makes `file` of the file `id`, and left the others. -/
structure Published (w w' : Work) (id : Nat) (file : File → File) : Prop where
  held : Held w'.state w'.state.slot
  next : w'.state.next = w.state.next
  node : ∃ n n', w.state.nodes[id]? = some n ∧ w'.state.nodes = w.state.nodes.insert id n' ∧
    fileOf w'.state w'.view id n' = file (fileOf w.state w.view id n)
  others : ∀ id', id' ≠ id → ∀ i, content w'.state.slot w'.view id' i =
    content w.state.slot w.view id' i

variable {id : Nat} {n : Node}

theorem insert_held (h : Held s (s.slotWith id n)) : Held { s with nodes := s.nodes.insert id n }
      (State.slot { s with nodes := s.nodes.insert id n }) := by
  rw [slot_insert]
  exact { h with }

theorem slotWith_congr {m : Node} (h : m.pages = n.pages) : s.slotWith id m = s.slotWith id n := by
  funext a
  rw [State.slotWith, State.slotWith, h]

/-- Putting a node in publishes the file that it has with the view. -/
theorem published_insert {w w' : Work} {m : Node} {file : File → File}
    (hn : w.state.nodes[id]? = some n) (hheld : Held w'.state (w'.state.slotWith id m))
    (hnext : w'.state.next = w.state.next) (hnodes : w'.state.nodes = w.state.nodes)
    (hsize : m.size = (file (fileOf w.state w.view id n)).size)
    (hbytes : ∀ i, content (w'.state.slotWith id m) w'.view id i =
      (file (fileOf w.state w.view id n)).byte i)
    (hothers : ∀ id', id' ≠ id → ∀ i, content (w'.state.slotWith id m) w'.view id' i =
      content w.state.slot w.view id' i) :
    Published w { w' with state := { w'.state with nodes := w'.state.nodes.insert id m } } id
      file where
  held := insert_held hheld
  next := hnext
  node := by
    refine ⟨n, m, hn, congrArg (fun t : Table Node => t.insert id m) hnodes, ?_⟩
    refine File.ext hsize (funext fun i => ?_)
    show content (State.slot _) w'.view id i = _
    rw [slot_insert]
    exact hbytes i
  others id' hid i := by
    show content (State.slot _) w'.view id' i = _
    rw [slot_insert]
    exact hothers id' hid i

/-- A write with its bytes, where the loop starts. -/
def losesWrite (s : State) (commits : Nat → Bool) (id : Nat) (position : Option Nat)
    (length : Nat) : Bool :=
  match s.nodes[id]? with
  | none => false
  | some n =>
    n.isReg && decide (0 < length) && decide (position.getD n.size + length ≤ 2 ^ 63 - 1) &&
      loses commits n.pages true s.room
        (pageRange (position.getD n.size) (position.getD n.size + length))

theorem write_spec {w : Work} (h : Held w.state w.state.slot) {commits : Nat → Bool}
    {position : Option Nat} {buffer : List (BitVec 8)}
    (hloses : losesWrite w.state commits id position buffer.length = false) :
    (∃ w' done n, w.write commits id position buffer = (w', .ok done) ∧
        w.state.nodes[id]? = some n ∧ done ≤ buffer.length ∧
        Published w w' id fun f => f.write (position.getD n.size) (buffer.take done)) ∨
      ∃ w' e, w.write commits id position buffer = (w', .error e) ∧ w'.view = w.view := by
  unfold Work.write
  unfold losesWrite at hloses
  cases hn : w.state.nodes[id]? with
  | none => exact .inr ⟨w, ENOENT, rfl, rfl⟩
  | some n =>
    rw [hn] at hloses
    dsimp only at hloses ⊢
    by_cases hreg : n.isReg = true
    · rw [hreg, Bool.not_true, if_neg Bool.false_ne_true]
      by_cases hlarge : position.getD n.size + buffer.length > 2 ^ 63 - 1
      · rw [if_pos hlarge]
        exact .inr ⟨w, EINVAL, rfl, rfl⟩
      rw [if_neg hlarge]
      have hheld : Held w.state (w.state.slotWith id n) := by
        rw [slotWith_self hn]
        exact h
      have hstart : 0 < buffer.length → loses commits n.pages (decide (0 = 0)) w.state.room
          (pageRange (position.getD n.size + 0) (position.getD n.size + buffer.length)) =
            false := by
        intro hpos
        rw [hreg, decide_eq_true hpos, decide_eq_true (by omega)] at hloses
        exact hloses
      rcases writeLoop_spec (w := w) _ rfl hheld (Nat.zero_le _) hstart with
        ⟨w', n', done, heq, hwrote⟩ | ⟨-, w', e, heq, hview⟩
      · rw [heq]
        dsimp only
        generalize hm : (if done ≠ 0 then
            { n' with
              size := max n'.size (position.getD n.size + done)
              mode := n'.mode &&& ~~~0o6000 }
            else n') = m
        have hpages : m.pages = n'.pages := by
          rw [← hm]
          split <;> rfl
        have hsize : m.size = if done ≠ 0 then max n.size (position.getD n.size + done)
            else n.size := by
          rw [← hm, show n.size = n'.size by rw [hwrote.node]]
          split <;> rfl
        have htake : (buffer.take done).length = done := by
          rw [List.length_take]
          exact Nat.min_eq_left hwrote.upper
        refine .inl ⟨_, done, n, rfl, rfl, hwrote.upper,
          published_insert hn ?_ hwrote.same.next hwrote.same.nodes ?_ (fun i => ?_) ?_⟩
        · rw [slotWith_congr hpages]
          exact hwrote.held
        · rw [hsize, File.write, htake]
          rfl
        · rw [slotWith_congr hpages, hwrote.bytes, slotWith_self hn, File.write, htake]
          refine ite_congr (propext (and_iff_right rfl)) (fun hin => ?_) fun _ => rfl
          rw [List.getD_eq_getElem?_getD, List.getD_eq_getElem?_getD, List.getElem?_take,
            if_pos (Nat.sub_lt_left_of_lt_add hin.1 hin.2)]
        · intro id' hid i
          rw [slotWith_congr hpages, ← slotWith_self hn]
          exact (hwrote.bytes id' i).trans (if_neg fun hall => hid hall.1)
      · rw [heq]
        exact .inr ⟨w', e, rfl, hview⟩
    · rw [Bool.not_eq_true] at hreg
      rw [hreg, Bool.not_false, if_pos rfl]
      exact .inr ⟨w, EISDIR, rfl, rfl⟩

/-! ## Truncating -/

theorem lt_pageCeil {page length : Nat} : page < pageCeil length ↔ page * PAGE < length := by
  have hle := le_pageCeil length
  have hge : pageCeil length * PAGE ≤ length + (PAGE - 1) := Nat.div_mul_le_self _ _
  constructor
  · intro hless
    have hmul : (page + 1) * PAGE ≤ pageCeil length * PAGE := Nat.mul_le_mul_right _ hless
    have hpos : 0 < PAGE := by decide
    rw [Nat.succ_mul] at hmul
    omega
  · intro hless
    refine Nat.lt_of_mul_lt_mul_right (a := PAGE) ?_
    omega

/-- The node without the pages behind the new end. -/
def Node.cut (n : Node) (length epoch : Nat) : Node :=
  { n with
    pages := n.pages.filter fun page _ => decide (page < pageCeil length)
    size := length
    mappingEpoch := epoch }

theorem cut_page (n : Node) (length epoch page : Nat) :
    (n.cut length epoch).pages[page]? = if page < pageCeil length then n.pages[page]? else none := by
  show (n.pages.filter fun page _ => decide (page < pageCeil length))[page]? = _
  rw [get_filter]
  by_cases hless : page < pageCeil length
  · rw [if_pos hless, decide_eq_true hless]
    cases n.pages[page]? <;> rfl
  · rw [if_neg hless, decide_eq_false hless]
    cases n.pages[page]? <;> rfl

theorem cut_held (h : Held s s.slot) (hn : s.nodes[id]? = some n) (length epoch : Nat) :
    Held { s with
        free := s.free ++ valuesOf (n.pages.filter fun page _ => decide (pageCeil length ≤ page)) }
      (s.slotWith id (n.cut length epoch)) := by
  have hslot : ∀ p, s.slot (id, p) = n.pages[p]? := fun p => by
    rw [State.slot, hn, Option.bind_some]
  have hremoved : ∀ p x : Nat, (n.pages.filter fun page _ => decide (pageCeil length ≤ page))[p]? =
      some x ↔ n.pages[p]? = some x ∧ pageCeil length ≤ p := fun p x => by
    rw [get_filter_eq_some, decide_eq_true_eq]
  refine ⟨h.slots.release (fun {a x} ha => ?_) (nodup_valuesOf fun p q x hp hq => ?_) fun x => ?_,
    h.bound, h.limit⟩
  · rw [State.slotWith] at ha
    split at ha
    · next heq =>
      rw [cut_page] at ha
      split at ha
      · rw [State.slot, heq, hn]
        exact ha
      · cases ha
    · exact ha
  · have hp' := ((hremoved p x).mp hp).1
    have hq' := ((hremoved q x).mp hq).1
    rw [← hslot] at hp' hq'
    exact congrArg Prod.snd (h.slots.injective hp' hq')
  · rw [mem_valuesOf]
    constructor
    · rintro ⟨p, hp⟩
      obtain ⟨hp, hge⟩ := (hremoved p x).mp hp
      refine ⟨(id, p), (hslot p).trans hp, ?_⟩
      rw [State.slotWith, if_pos rfl, cut_page, if_neg (by omega)]
    · rintro ⟨a, ha, hnone⟩
      rw [State.slotWith] at hnone
      split at hnone
      · next heq =>
        rw [State.slot, heq, hn, Option.bind_some] at ha
        rw [cut_page, ha] at hnone
        refine ⟨a.2, (hremoved a.2 x).mpr ⟨ha, ?_⟩⟩
        by_contra hless
        rw [if_pos (by omega)] at hnone
        cases hnone
      · rw [ha] at hnone
        cases hnone

theorem cut_content (hn : s.nodes[id]? = some n) (length epoch : Nat) (view : Nat → BitVec 8)
    (i : Nat) :
    content (s.slotWith id (n.cut length epoch)) view id i =
      if i / PAGE < pageCeil length then content s.slot view id i else 0 := by
  unfold content
  rw [State.slotWith, if_pos rfl, cut_page, State.slot, hn, Option.bind_some]
  by_cases hless : i / PAGE < pageCeil length
  · rw [if_pos hless, if_pos hless]
  · rw [if_neg hless, if_neg hless]

theorem cut_others {id' : Nat} (hid : id' ≠ id) (n : Node) (length epoch : Nat)
    (view : Nat → BitVec 8) (i : Nat) :
    content (s.slotWith id (n.cut length epoch)) view id' i = content s.slot view id' i := by
  unfold content
  rw [State.slotWith, if_neg hid]

theorem truncate_spec {w : Work} (h : Held w.state w.state.slot) (revoked : Except Int Unit)
    (id length : Nat) :
    (∃ w', w.truncate revoked id length = (w', .ok ()) ∧
        Published w w' id fun f => f.truncate length) ∨
      ∃ w' e, w.truncate revoked id length = (w', .error e) ∧ w'.view = w.view := by
  unfold Work.truncate
  cases hn : w.state.nodes[id]? with
  | none => exact .inr ⟨w, ENOENT, rfl, rfl⟩
  | some n =>
    dsimp only
    by_cases hreg : n.isReg = true
    · rw [hreg, Bool.not_true, if_neg Bool.false_ne_true]
      generalize (if length < n.size then _ else _ : Except Int Nat) = shrink
      cases shrink with
      | error e => exact .inr ⟨w, e, rfl, rfl⟩
      | ok epoch =>
        dsimp only
        have hheld := cut_held h hn length epoch
        have hdiv := Nat.div_add_mod' length PAGE
        have hmod := Nat.mod_lt length (show 0 < PAGE by decide)
        -- Either nothing of a page remains, or the rest of the last page is zeroed.
        have hpublished : ∀ view : Nat → BitVec 8,
            (∀ id' i, content (w.state.slotWith id (n.cut length epoch)) view id' i =
              if id' = id ∧ length ≤ i ∧ i / PAGE < pageCeil length then 0
              else content (w.state.slotWith id (n.cut length epoch)) w.view id' i) →
            Published w ⟨{ w.state with
              free := w.state.free ++
                valuesOf (n.pages.filter fun page _ => decide (pageCeil length ≤ page))
              nodes := w.state.nodes.insert id (n.cut length epoch) }, view⟩ id
              fun f => f.truncate length := by
          intro view hview
          have hslots : State.slot { w.state with
              free := w.state.free ++
                valuesOf (n.pages.filter fun page _ => decide (pageCeil length ≤ page))
              nodes := w.state.nodes.insert id (n.cut length epoch) } =
              w.state.slotWith id (n.cut length epoch) :=
            slot_insert { w.state with
              free := w.state.free ++
                valuesOf (n.pages.filter fun page _ => decide (pageCeil length ≤ page)) } id _
          exact
            { held := by
                rw [hslots]
                exact { hheld with }
              next := rfl
              node := by
                refine ⟨n, n.cut length epoch, hn, rfl, File.ext rfl (funext fun i => ?_)⟩
                show content (State.slot _) view id i = if i < length then _ else 0
                rw [hslots, hview, cut_content hn]
                have hcell := Nat.div_add_mod' i PAGE
                have hcellmod := Nat.mod_lt i (show 0 < PAGE by decide)
                by_cases hless : i < length
                · rw [if_neg (by omega), if_pos hless, if_pos (lt_pageCeil.mpr (by omega))]
                  rfl
                rw [if_neg hless]
                by_cases hpage : i / PAGE < pageCeil length
                · rw [if_pos ⟨rfl, by omega, hpage⟩]
                · rw [if_neg fun hall => hpage hall.2.2, if_neg hpage]
              others := fun id' hid i => by
                show content (State.slot _) view id' i = _
                rw [hslots, hview, if_neg fun hall => hid hall.1, cut_others hid] }
        have hempty : (∀ x, n.pages[length / PAGE]? = some x → length % PAGE = 0) →
            ∀ id' i, content (w.state.slotWith id (n.cut length epoch)) w.view id' i =
              if id' = id ∧ length ≤ i ∧ i / PAGE < pageCeil length then 0
              else content (w.state.slotWith id (n.cut length epoch)) w.view id' i := by
          intro hnone id' i
          split
          · next hin =>
            obtain ⟨rfl, hge, hpage⟩ := hin
            have hstart := lt_pageCeil.mp hpage
            have hlast : length / PAGE = i / PAGE := by
              refine page_of (by omega) ?_
              have hcell := Nat.div_add_mod' i PAGE
              have hcellmod := Nat.mod_lt i (show 0 < PAGE by decide)
              omega
            rw [cut_content hn, if_pos hpage, content, State.slot, hn, Option.bind_some]
            cases hx : n.pages[i / PAGE]? with
            | none => rfl
            | some x =>
              have hzero := hnone x (hlast ▸ hx)
              rw [hlast] at hdiv
              omega
          · rfl
        by_cases hzero : length % PAGE = 0
        · rw [if_pos hzero]
          exact .inl ⟨_, rfl, hpublished w.view (hempty fun _ _ => hzero)⟩
        rw [if_neg hzero]
        have hpage : length / PAGE < pageCeil length := lt_pageCeil.mpr (by omega)
        have hfound := cut_page n length epoch (length / PAGE)
        rw [if_pos hpage] at hfound
        change (n.pages.filter fun page _ => decide (page < pageCeil length))[length / PAGE]? = _
          at hfound
        rw [hfound]
        cases hx : n.pages[length / PAGE]? with
        | none =>
          exact .inl ⟨_, rfl, hpublished w.view (hempty fun x hsome => by
            rw [hx] at hsome
            cases hsome)⟩
        | some x =>
          have hslot : w.state.slot (id, length / PAGE) = some x := by
            rw [State.slot, hn]
            exact hx
          have hcutslot : w.state.slotWith id (n.cut length epoch) (id, length / PAGE) =
              some x := by
            rw [State.slotWith, if_pos rfl, cut_page, if_pos hpage]
            exact hx
          dsimp only
          rw [h.page hslot]
          refine .inl ⟨_, rfl, hpublished _ fun id' i => ?_⟩
          rw [zero_eq_store]
          refine (content_store hheld.slots hcutslot
            (by rw [List.length_replicate]; omega) id' i).trans ?_
          rw [hdiv, List.length_replicate]
          have hcell := Nat.div_add_mod' i PAGE
          have hcellmod := Nat.mod_lt i (show 0 < PAGE by decide)
          have hpages := @lt_pageCeil (i / PAGE) length
          refine ite_congr (propext (and_congr_right fun _ =>
            and_congr_right fun hge => ?_)) (fun hin => ?_) fun _ => rfl
          · rw [hpages]
            constructor
            · intro hless
              have hsame : i / PAGE = length / PAGE := page_of (by omega) (by omega)
              rw [hsame]
              omega
            · intro hless
              have hsame : length / PAGE = i / PAGE := page_of (by omega) (by omega)
              rw [hsame] at hdiv
              omega
          · rw [List.getD_eq_getElem?_getD, List.getElem?_replicate]
            split <;> rfl
    · rw [Bool.not_eq_true] at hreg
      rw [hreg, Bool.not_false, if_pos rfl]
      exact .inr ⟨w, EINVAL, rfl, rfl⟩

end Kinakaze.Tmpfs
