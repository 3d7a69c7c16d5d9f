import Mathlib.Algebra.Ring.Nat
import Mathlib.Algebra.Ring.Int.Defs
import Kinakaze.Futex.Passes
import Kinakaze.Library.Run
import Mathlib.Data.List.Nodup

/-!
# The law of the queue

A token that was issued is either queued or was retired, and it was retired once.
-/

namespace Kinakaze.Futex

variable {W : Type} {n : Native W} {d : Domain W}

/-! ## Room in the table -/

variable {r : Record}

theorem not_ofSource (h : r.ordinary = true) (tokens : List Nat) : r.ofSource tokens = false := by
  simp only [Record.ordinary, Bool.and_eq_true, Bool.not_eq_true', Record.specialWait,
    Bool.or_eq_false_iff] at h
  have htarget : (r.reserved &&& TARGET != 0) = false := by
    by_contra htarget
    have hmetadata := h.1
    simp only [Record.metadata, bne_eq_false_iff_eq] at hmetadata
    simp only [Bool.not_eq_false, bne_iff_ne] at htarget
    refine htarget ?_
    have hand : r.reserved &&& TARGET =
        r.reserved &&& (STATE ||| JOURNAL ||| TARGET ||| SOURCE_JOURNAL) &&& TARGET := by
      rw [BitVec.and_assoc]
      rfl
    rw [hand, hmetadata]
    simp
  have hbits : r.reserved &&& TARGET = 0 := by simpa using htarget
  simp [Record.ofSource, h.2.2, hbits]

/-- What `reserve` does to the table. -/
structure Reserved.Lawful (n : Native W) (table : List Record) (r : Reserved W) : Prop where
  sublist : r.table.Sublist table
  split : (table.filter Record.ordinary).Perm (r.table.filter Record.ordinary ++ r.dropped)
  ordinary : ∀ x ∈ r.dropped, x.ordinary = true
  gone : ∀ x ∈ r.dropped, ∃ w : W, (n.dead x w).1 = true

theorem Reserved.Lawful.unchanged (table : List Record) (cursor : BitVec 32) (w : W) :
    Reserved.Lawful n table ⟨table, [], cursor, w⟩ :=
  ⟨.refl _, by simp, nofun, nofun⟩

theorem filter_ordinary_ofSource (tokens : List Nat) (table : List Record) :
    (table.filter fun r => !r.ofSource tokens).filter Record.ordinary =
      table.filter Record.ordinary := by
  rw [List.filter_filter]
  refine List.filter_congr fun r _ => ?_
  by_cases h : r.ordinary = true
  · simp [h, not_ofSource h]
  · simp [h]

theorem sweepOne_lawful (table : List Record) (cursor : BitVec 32) (w : W) :
    (sweepOne n table cursor w).Lawful n table := by
  unfold sweepOne
  split
  · exact .unchanged ..
  · next r hr =>
    split
    · split
      · refine ⟨List.filter_sublist, ?_, nofun, nofun⟩
        rw [List.append_nil, filter_ordinary_ofSource]
      · exact .unchanged ..
    split
    · next hordinary =>
      split
      · next w' hdead =>
        obtain ⟨hlt, hget⟩ := List.getElem?_eq_some_iff.mp hr
        have hperm := List.getElem_cons_eraseIdx_perm hlt
        rw [hget] at hperm
        refine ⟨List.eraseIdx_sublist .., ?_, ?_, ?_⟩
        · have hfilter := (hperm.filter Record.ordinary).symm
          rw [List.filter_cons_of_pos hordinary] at hfilter
          exact hfilter.trans (List.perm_append_singleton _ _).symm
        · simpa using hordinary
        · intro x hx
          obtain rfl := List.mem_singleton.mp hx
          exact ⟨w, by rw [hdead]⟩
      · exact .unchanged ..
    · exact .unchanged ..

theorem retain_reserveKeeps (sources : List Nat) (table : List Record) (s : List Record × W) :
    ∃ dropped : List Record, (retain (reserveKeeps n sources) s table).2.1 = s.1 ++ dropped ∧
      Reserved.Lawful n table ⟨(retain (reserveKeeps n sources) s table).1, dropped, 0, s.2⟩ := by
  induction table generalizing s with
  | nil => exact ⟨[], by simp [retain], .refl _, by simp [retain], nofun, nofun⟩
  | cons r rows ih =>
    rw [retain]
    by_cases hsource : r.ofSource sources = true
    · have hordinary : r.ordinary = false := by
        by_contra h
        rw [not_ofSource (by simpa using h)] at hsource
        cases hsource
      obtain ⟨dropped, hdropped, h⟩ := ih s
      have hkeeps : reserveKeeps n sources s r = (false, s) := if_pos hsource
      rw [hkeeps]
      exact ⟨dropped, hdropped, h.sublist.cons r, by simpa [hordinary] using h.split,
        h.ordinary, h.gone⟩
    by_cases hspecial : (r.metadata || r.specialWait) = true
    · have hordinary : r.ordinary = false := by
        simp only [Bool.or_eq_true] at hspecial
        rcases hspecial with h | h <;> simp [Record.ordinary, h]
      obtain ⟨dropped, hdropped, h⟩ := ih s
      have hkeeps : reserveKeeps n sources s r = (true, s) := by
        rw [reserveKeeps, if_neg hsource, if_pos hspecial]
      rw [hkeeps]
      exact ⟨dropped, hdropped, h.sublist.cons_cons r, by simpa [hordinary] using h.split,
        h.ordinary, h.gone⟩
    have hordinary : r.ordinary = true := by
      simp only [Bool.or_eq_true, not_or, Bool.not_eq_true] at hspecial
      simp [Record.ordinary, hspecial]
    cases hdead : n.dead r s.2 with
    | mk verdict w =>
      cases verdict with
      | true =>
        obtain ⟨dropped, hdropped, h⟩ := ih (s.1 ++ [r], w)
        have hkeeps : reserveKeeps n sources s r = (false, (s.1 ++ [r], w)) := by
          rw [reserveKeeps, if_neg hsource, if_neg hspecial, hdead]
        rw [hkeeps]
        refine ⟨r :: dropped, by simpa using hdropped, h.sublist.cons r, ?_, ?_, ?_⟩
        · rw [List.filter_cons_of_pos hordinary]
          exact (h.split.cons r).trans List.perm_middle.symm
        · intro x hx
          rcases List.mem_cons.mp hx with rfl | hx
          · exact hordinary
          · exact h.ordinary x hx
        · intro x hx
          rcases List.mem_cons.mp hx with rfl | hx
          · exact ⟨s.2, by rw [hdead]⟩
          · exact h.gone x hx
      | false =>
        obtain ⟨dropped, hdropped, h⟩ := ih (s.1, w)
        have hkeeps : reserveKeeps n sources s r = (true, (s.1, w)) := by
          rw [reserveKeeps, if_neg hsource, if_neg hspecial, hdead]
        rw [hkeeps]
        refine ⟨dropped, hdropped, h.sublist.cons_cons r, ?_, h.ordinary, h.gone⟩
        simp only [List.filter_cons_of_pos hordinary]
        exact h.split.cons r

theorem reserve_lawful (optimized : Bool) (table : List Record) (count : Nat)
    (cursor : BitVec 32) (w : W) : (reserve optimized n table count cursor w).Lawful n table := by
  unfold reserve
  split
  · exact sweepOne_lawful table cursor w
  unfold sweepAll
  cases hsources : deadSources n table w with
  | mk sources w' =>
    obtain ⟨dropped, hdropped, h⟩ := retain_reserveKeeps (n := n) sources table ([], w')
    simp only
    rw [hdropped, List.nil_append]
    exact { h with }

/-! ## The table and its history -/

def tokens (rows : List Record) : List Nat := rows.map Record.token

/-- The tokens of the waiters in the table. -/
def Domain.queued (d : Domain W) : List Nat := tokens (d.table.filter Record.ordinary)

/-- The invariant of the table. -/
structure Queued (n : Native W) (d : Domain W) : Prop where
  split : (d.retired.map Prod.fst ++ d.queued).Perm (tokens d.issued)
  nodup : (tokens d.issued).Nodup
  started : 0 < d.nextToken.toNat
  fresh : ∀ r ∈ d.issued, r.token < d.nextToken.toNat
  other : ∀ r ∈ d.table, r.metadata = false → r.ordinary = false →
    r.token ∉ tokens d.issued ∧ r.token < d.nextToken.toNat
  origin : ∀ r ∈ d.table, r.ordinary = true → ∃ r₀ ∈ d.issued, r = { r₀ with key := r.key }
  sorted : (d.table.filter Record.ordinary).Pairwise fun a b =>
    d.joined a.token < d.joined b.token
  before : ∀ r ∈ d.table, r.ordinary = true → d.joined r.token < d.clock
  buried : ∀ token : Nat, (token, Retirement.dead) ∈ d.retired →
    ∃ r ∈ d.issued, r.token = token ∧ ∃ (key : Key) (w : W), (n.dead { r with key } w).1 = true

theorem Queued.initial (words : Key → BitVec 32) (w : W) : Queued n (.initial words w) where
  split := .refl _
  nodup := List.nodup_nil
  started := by simp [Domain.initial]
  fresh := nofun
  other := nofun
  origin := nofun
  sorted := .nil
  before := nofun
  buried := nofun

/-- A step that takes rows out of the table, puts some of them back at its end under
another key and retires the rest. -/
structure Rearranged (n : Native W) (d d' : Domain W) (kept moved : List Record) (target : Key)
    (gone : List (Nat × Retirement)) : Prop where
  issued : d'.issued = d.issued
  nextToken : d.nextToken.toNat ≤ d'.nextToken.toNat
  keeps : kept.Sublist d.table
  table : d'.table = kept ++ moved.map fun r => { r with key := target }
  retired : d'.retired = d.retired ++ gone
  split : d.queued.Perm (tokens (kept.filter Record.ordinary) ++ tokens moved ++ gone.map Prod.fst)
  moves : moved.Sublist d.table
  ordinary : ∀ r ∈ moved, r.ordinary = true
  joined : ∀ token : Nat, d'.joined token =
    if token ∈ tokens moved then d.clock + (tokens moved).idxOf token else d.joined token
  clock : d'.clock = d.clock + moved.length
  dead : ∀ token : Nat, (token, Retirement.dead) ∈ gone → ∃ r ∈ d.table, r.ordinary = true ∧
    r.token = token ∧ ∃ w : W, (n.dead r w).1 = true

theorem ordinary_setKey (r : Record) (key : Key) :
    Record.ordinary { r with key } = r.ordinary := rfl

variable {d' : Domain W} {kept moved : List Record} {target : Key} {gone : List (Nat × Retirement)}

theorem Rearranged.queued (h : Rearranged n d d' kept moved target gone) :
    d'.table.filter Record.ordinary =
      kept.filter Record.ordinary ++ moved.map fun r => { r with key := target } := by
  rw [h.table, List.filter_append]
  congr 1
  refine List.filter_eq_self.mpr fun r hr => ?_
  obtain ⟨r₀, hr₀, rfl⟩ := List.mem_map.mp hr
  exact h.ordinary r₀ hr₀

theorem tokens_setKey (rows : List Record) (key : Key) :
    tokens (rows.map fun r => { r with key }) = tokens rows := by
  simp [tokens, Function.comp_def]

theorem Queued.nodup_queued (h : Queued n d) : d.queued.Nodup := by
  have hall := h.split.nodup_iff.mpr h.nodup
  exact (List.nodup_append.mp hall).2.1

theorem mem_tokens_of_moved (h : Queued n d) (hd : Rearranged n d d' kept moved target gone)
    (hr : r ∈ kept) (hordinary : r.ordinary = true) : r.token ∉ tokens moved := by
  have hnodup := hd.split.nodup_iff.mp h.nodup_queued
  rw [List.append_assoc, List.nodup_append] at hnodup
  intro hmoved
  have hkept : r.token ∈ tokens (kept.filter Record.ordinary) :=
    List.mem_map_of_mem (List.mem_filter.mpr ⟨hr, hordinary⟩)
  exact hnodup.2.2 _ hkept _ (List.mem_append_left _ hmoved) rfl

theorem Queued.rearrange (h : Queued n d)
    (hd : Rearranged n d d' kept moved target gone) : Queued n d' := by
  have hstays : ∀ r ∈ kept, r.ordinary = true → d'.joined r.token = d.joined r.token := by
    intro r hr hordinary
    rw [hd.joined, if_neg (mem_tokens_of_moved h hd hr hordinary)]
  have hnodup : (tokens moved).Nodup := by
    have hall := hd.split.nodup_iff.mp h.nodup_queued
    exact (List.nodup_append.mp (List.nodup_append.mp hall).1).2.1
  have hjoins : ∀ r ∈ moved, d'.joined r.token = d.clock + (tokens moved).idxOf r.token ∧
      (tokens moved).idxOf r.token < moved.length := by
    intro r hr
    have hmem : r.token ∈ tokens moved := List.mem_map_of_mem hr
    refine ⟨by rw [hd.joined, if_pos hmem], ?_⟩
    simpa [tokens] using List.idxOf_lt_length_of_mem hmem
  have hcases : ∀ r ∈ d'.table, r ∈ kept ∨ ∃ r₀ ∈ moved, r = { r₀ with key := target } := by
    intro r hr
    rw [hd.table] at hr
    rcases List.mem_append.mp hr with hr | hr
    · exact .inl hr
    · obtain ⟨r₀, hr₀, rfl⟩ := List.mem_map.mp hr
      exact .inr ⟨r₀, hr₀, rfl⟩
  refine ⟨?_, ?_, Nat.lt_of_lt_of_le h.started hd.nextToken, fun r hr => ?_, fun r hr hm ho => ?_,
    fun r hr ho => ?_, ?_, fun r hr ho => ?_, fun token htoken => ?_⟩
  · rw [hd.retired, Domain.queued, hd.queued, hd.issued, List.map_append]
    refine List.Perm.trans ?_ h.split
    rw [List.append_assoc]
    refine List.Perm.append_left _ (List.Perm.trans ?_ hd.split.symm)
    rw [tokens, List.map_append, ← tokens, ← tokens, tokens_setKey]
    exact List.perm_append_comm
  · exact hd.issued ▸ h.nodup
  · rw [hd.issued] at hr
    exact Nat.lt_of_lt_of_le (h.fresh r hr) hd.nextToken
  · rw [hd.issued]
    rcases hcases r hr with hkept | ⟨r₀, hr₀, rfl⟩
    · obtain ⟨hnew, hlt⟩ := h.other r (hd.keeps.mem hkept) hm ho
      exact ⟨hnew, Nat.lt_of_lt_of_le hlt hd.nextToken⟩
    · rw [ordinary_setKey, hd.ordinary r₀ hr₀] at ho
      cases ho
  · rw [hd.issued]
    rcases hcases r hr with hkept | ⟨r₀, hr₀, rfl⟩
    · exact h.origin r (hd.keeps.mem hkept) ho
    · obtain ⟨r₁, hr₁, heq⟩ := h.origin r₀ (hd.moves.mem hr₀) (hd.ordinary r₀ hr₀)
      refine ⟨r₁, hr₁, ?_⟩
      rw [heq]
  · rw [hd.queued, List.pairwise_append]
    refine ⟨?_, ?_, fun a ha b hb => ?_⟩
    · have hsorted := h.sorted.sublist (hd.keeps.filter Record.ordinary)
      refine hsorted.imp_of_mem fun {a b} ha hb hab => ?_
      rw [List.mem_filter] at ha hb
      rwa [hstays a ha.1 ha.2, hstays b hb.1 hb.2]
    · rw [List.pairwise_map]
      refine List.pairwise_iff_getElem.mpr fun i j hi hj hij => ?_
      have hidx : ∀ (k : Nat) (hk : k < moved.length), d'.joined moved[k].token = d.clock + k := by
        intro k hk
        rw [(hjoins moved[k] (List.getElem_mem hk)).1]
        have hlength : k < (tokens moved).length := by simpa [tokens] using hk
        have hget : moved[k].token = (tokens moved)[k] := by simp [tokens]
        rw [hget, hnodup.idxOf_getElem]
      simp only [hidx i hi, hidx j hj]
      omega
    · obtain ⟨r, hr, rfl⟩ := List.mem_map.mp hb
      rw [List.mem_filter] at ha
      have hlt := h.before a (hd.keeps.mem ha.1) ha.2
      rw [hstays a ha.1 ha.2, (hjoins r hr).1]
      omega
  · rw [hd.clock]
    rcases hcases r hr with hkept | ⟨r₀, hr₀, rfl⟩
    · have hlt := h.before r (hd.keeps.mem hkept) ho
      rw [hstays r hkept ho]
      omega
    · obtain ⟨hjoined, hlt⟩ := hjoins r₀ hr₀
      simp only [hjoined]
      omega
  · rw [hd.issued]
    rw [hd.retired] at htoken
    rcases List.mem_append.mp htoken with hold | hnew
    · exact h.buried token hold
    obtain ⟨r, hr, ho, htok, w, hdead⟩ := hd.dead token hnew
    obtain ⟨r₀, hr₀, heq⟩ := h.origin r hr ho
    refine ⟨r₀, hr₀, ?_, r.key, w, ?_⟩
    · rw [← htok, heq]
    · rwa [← heq]

variable {nextToken : BitVec 64} {waiters : List Nat}

theorem Queued.push (h : Queued n d) (hordinary : r.ordinary = true)
    (hfresh : d.nextToken.toNat ≤ r.token) (hnext : r.token < nextToken.toNat) :
    Queued n ({ d with nextToken, waiters }.push r) := by
  have hnew : r.token ∉ tokens d.issued := by
    intro hmem
    obtain ⟨x, hx, heq⟩ := List.mem_map.mp hmem
    have hlt := h.fresh x hx
    omega
  have hold : ∀ x ∈ d.table, x.ordinary = true → x.token ≠ r.token := by
    intro x hx ho heq
    obtain ⟨x₀, hx₀, hkey⟩ := h.origin x hx ho
    refine hnew (List.mem_map.mpr ⟨x₀, hx₀, ?_⟩)
    rw [← heq, hkey]
  have hfilter : (d.table ++ [r]).filter Record.ordinary =
      d.table.filter Record.ordinary ++ [r] := by
    rw [List.filter_append, List.filter_cons_of_pos hordinary, List.filter_nil]
  unfold Domain.push
  refine ⟨?_, ?_, ?_, fun x hx => ?_, fun x hx hm ho => ?_, fun x hx ho => ?_, ?_,
    fun x hx ho => ?_, fun token htoken => ?_⟩
  · simp only [Domain.queued, hfilter, tokens, List.map_append]
    rw [← List.append_assoc]
    exact h.split.append_right _
  · simp only [tokens, List.map_append]
    refine List.nodup_append.mpr ⟨h.nodup, by simp, fun a ha b hb => ?_⟩
    rintro rfl
    obtain rfl : a = r.token := by simpa using hb
    exact hnew ha
  · simp only
    omega
  · rcases List.mem_append.mp hx with hx | hx
    · have hlt := h.fresh x hx
      simp only
      omega
    · obtain rfl := List.mem_singleton.mp hx
      exact hnext
  · rcases List.mem_append.mp hx with hx | hx
    · obtain ⟨hother, hlt⟩ := h.other x hx hm ho
      refine ⟨?_, by simp only; omega⟩
      simp only [tokens, List.map_append, List.mem_append, not_or]
      refine ⟨hother, fun heq => ?_⟩
      have htoken : x.token = r.token := by simpa using heq
      omega
    · obtain rfl := List.mem_singleton.mp hx
      rw [hordinary] at ho
      cases ho
  · rcases List.mem_append.mp hx with hx | hx
    · obtain ⟨x₀, hx₀, heq⟩ := h.origin x hx ho
      exact ⟨x₀, List.mem_append_left _ hx₀, heq⟩
    · obtain rfl := List.mem_singleton.mp hx
      exact ⟨x, List.mem_append_right _ List.mem_cons_self, rfl⟩
  · simp only [hfilter]
    refine List.pairwise_append.mpr ⟨?_, List.pairwise_singleton .., fun a ha b hb => ?_⟩
    · refine h.sorted.imp_of_mem fun {a b} ha hb hab => ?_
      rw [List.mem_filter] at ha hb
      rwa [Function.update_of_ne (hold a ha.1 ha.2), Function.update_of_ne (hold b hb.1 hb.2)]
    · obtain rfl := List.mem_singleton.mp hb
      rw [List.mem_filter] at ha
      rw [Function.update_of_ne (hold a ha.1 ha.2), Function.update_self]
      exact h.before a ha.1 ha.2
  · simp only
    rcases List.mem_append.mp hx with hx | hx
    · rw [Function.update_of_ne (hold x hx ho)]
      exact Nat.lt_succ_of_lt (h.before x hx ho)
    · obtain rfl := List.mem_singleton.mp hx
      rw [Function.update_self]
      exact Nat.lt_succ_self _
  · obtain ⟨x, hx, hrest⟩ := h.buried token htoken
    exact ⟨x, List.mem_append_left _ hx, hrest⟩

/-! ## The steps on the table -/

theorem tokens_append (xs ys : List Record) : tokens (xs ++ ys) = tokens xs ++ tokens ys :=
  List.map_append

theorem map_fst_retire (rows : List Record) (how : Retirement) :
    (rows.map fun r => (r.token, how)).map Prod.fst = tokens rows := by
  simp [tokens, Function.comp_def]

variable {token : Nat}

theorem of_mem_retire {rows : List Record} {how : Retirement} {entry : Retirement}
    (h : (token, entry) ∈ rows.map fun r => (r.token, how)) :
    entry = how ∧ ∃ r ∈ rows, r.token = token := by
  obtain ⟨r, hr, heq⟩ := List.mem_map.mp h
  cases heq
  exact ⟨rfl, r, hr, rfl⟩

theorem Section.Lawful.rearranged {bitset : BitVec 32} {s : Section W}
    (hs : s.Lawful n target bitset d.table) (words : Key → BitVec 32) :
    ∃ kept : List Record, Rearranged n d { d.commit s with words } kept s.moved target
      ((s.woken.map fun r => (r.token, .selected)) ++ s.dropped.map fun r => (r.token, .dead)) := by
  obtain ⟨kept, hkept, htable, hperm⟩ := hs.parts
  have hall : (s.woken ++ s.moved ++ s.dropped).filter Record.ordinary =
      s.woken ++ s.moved ++ s.dropped := List.filter_eq_self.mpr hs.ordinary
  have hin : ∀ r ∈ s.woken ++ s.moved ++ s.dropped, r ∈ d.table := fun r hr =>
    hperm.mem_iff.mpr (List.mem_append_right _ hr)
  refine ⟨kept, rfl, Nat.le_refl _, hkept, htable, by simp [Domain.commit], ?_, hs.order,
    fun r hr => hs.ordinary r (by simp [hr]), fun token => rfl, rfl, fun token htoken => ?_⟩
  · have hfilter := hperm.filter Record.ordinary
    rw [List.filter_append, hall] at hfilter
    refine (hfilter.map Record.token).trans (List.perm_iff_count.mpr fun a => ?_)
    simp only [List.map_append, map_fst_retire, List.count_append, tokens]
    omega
  · rcases List.mem_append.mp htoken with h | h
    · cases (of_mem_retire h).1
    · obtain ⟨-, r, hr, rfl⟩ := of_mem_retire h
      have hmem : r ∈ s.woken ++ s.moved ++ s.dropped := List.mem_append_right _ hr
      exact ⟨r, hin r hmem, hs.ordinary r hmem, rfl, hs.gone r hr⟩

theorem Reserved.Lawful.rearranged {r : Reserved W} (hr : r.Lawful n d.table) :
    Rearranged n d (d.settle r) r.table [] default (r.dropped.map fun r => (r.token, .dead)) := by
  have hin : ∀ x ∈ r.dropped, x ∈ d.table := fun x hx =>
    (List.mem_filter.mp (hr.split.mem_iff.mpr (List.mem_append_right _ hx))).1
  refine ⟨rfl, Nat.le_refl _, hr.sublist, by simp [Domain.settle], rfl, ?_, List.nil_sublist _,
    nofun, fun token => by simp [tokens, Domain.settle], rfl, fun token htoken => ?_⟩
  · rw [map_fst_retire, Domain.queued, tokens, ← tokens_append]
    simpa [tokens] using hr.split.map Record.token
  · obtain ⟨-, x, hx, rfl⟩ := of_mem_retire htoken
    exact ⟨x, hin x hx, hr.ordinary x hx, rfl, hr.gone x hx⟩

theorem Rearranged.idle (hissued : d'.issued = d.issued)
    (hnext : d.nextToken.toNat ≤ d'.nextToken.toNat) (htable : d'.table = d.table)
    (hretired : d'.retired = d.retired) (hjoined : d'.joined = d.joined)
    (hclock : d'.clock = d.clock) : Rearranged n d d' d.table [] default [] where
  issued := hissued
  nextToken := hnext
  keeps := .refl _
  table := by simp [htable]
  retired := by simp [hretired]
  split := by simp [Domain.queued, tokens]
  moves := List.nil_sublist _
  ordinary := nofun
  joined token := by simp [tokens, hjoined]
  clock := by simp [hclock]
  dead := nofun

theorem Queued.ordinary_of_queued (h : Queued n d) (ht : token ∈ tokens d.issued) (hr : r ∈ d.table)
    (hq : r.queued token = true) : r.ordinary = true ∧ r.token = token := by
  simp only [Record.queued, Bool.and_eq_true, Bool.not_eq_true', beq_iff_eq] at hq
  refine ⟨?_, hq.2⟩
  by_contra hordinary
  exact (h.other r hr hq.1 (by simpa using hordinary)).1 (hq.2 ▸ ht)

theorem queued_of_ordinary (h : r.ordinary = true) : r.queued r.token = true := by
  simp only [Record.ordinary, Bool.and_eq_true, Bool.not_eq_true'] at h
  simp [Record.queued, h.1]

theorem Queued.any_queued_iff (h : Queued n d) (ht : token ∈ tokens d.issued) :
    d.table.any (Record.queued token) = true ↔ token ∈ d.queued := by
  rw [List.any_eq_true]
  constructor
  · rintro ⟨r, hr, hq⟩
    obtain ⟨hordinary, rfl⟩ := h.ordinary_of_queued ht hr hq
    exact List.mem_map_of_mem (List.mem_filter.mpr ⟨hr, hordinary⟩)
  · intro hmem
    obtain ⟨r, hr, rfl⟩ := List.mem_map.mp hmem
    rw [List.mem_filter] at hr
    exact ⟨r, hr.1, queued_of_ordinary hr.2⟩

/-- Taking the row of a token out of the table. -/
theorem Queued.remove (h : Queued n d) (ht : token ∈ tokens d.issued)
    (hany : d.table.any (Record.queued token) = true) (hissued : d'.issued = d.issued)
    (hnext : d'.nextToken = d.nextToken) (htable : d'.table = d.table.eraseP (Record.queued token))
    (hretired : d'.retired = d.retired ++ [(token, .cancelled)]) (hjoined : d'.joined = d.joined)
    (hclock : d'.clock = d.clock) :
    Rearranged n d d' (d.table.eraseP (Record.queued token)) [] default [(token, .cancelled)] := by
  obtain ⟨x, hx, hqx⟩ := List.any_eq_true.mp hany
  obtain ⟨r, front, back, -, hq, hsplit, herase⟩ := List.exists_of_eraseP hx hqx
  obtain ⟨hordinary, htoken⟩ := h.ordinary_of_queued ht (hsplit ▸ by simp) hq
  refine ⟨hissued, hnext ▸ Nat.le_refl _, List.eraseP_sublist, by simp [htable], hretired, ?_,
    List.nil_sublist _, nofun, fun t => by simp [tokens, hjoined], by simp [hclock], by simp⟩
  rw [Domain.queued, herase, hsplit]
  have hperm : (front ++ r :: back).Perm (r :: (front ++ back)) := List.perm_middle
  have hfilter := hperm.filter Record.ordinary
  rw [List.filter_cons_of_pos hordinary] at hfilter
  refine (hfilter.map Record.token).trans ?_
  simp only [List.map_cons, htoken, tokens, List.map_nil, List.append_nil]
  exact (List.perm_append_singleton _ _).symm

theorem filter_eq_eraseP {rows : List Record} {p : Record → Bool}
    (h : (rows.filter p).length ≤ 1) : rows.filter (fun r => !p r) = rows.eraseP p := by
  induction rows with
  | nil => rfl
  | cons r rest ih =>
    by_cases hp : p r = true
    · rw [List.filter_cons_of_pos hp, List.length_cons] at h
      have hnone : rest.filter p = [] := List.length_eq_zero_iff.mp (by omega)
      rw [List.filter_eq_nil_iff] at hnone
      rw [List.eraseP_cons_of_pos hp, List.filter_cons_of_neg (by simpa using hp),
        List.filter_eq_self.mpr fun x hx => by simpa using hnone x hx]
    · rw [List.filter_cons_of_neg hp] at h
      rw [List.eraseP_cons_of_neg hp, List.filter_cons_of_pos (by simpa using hp), ih h]

theorem Queued.one_row (h : Queued n d) (ht : token ∈ tokens d.issued) :
    (d.table.filter (Record.queued token)).length ≤ 1 := by
  have hfilter : d.table.filter (Record.queued token) =
      (d.table.filter Record.ordinary).filter (Record.queued token) := by
    rw [List.filter_filter]
    refine List.filter_congr fun r hr => ?_
    by_cases hq : r.queued token = true
    · simp [hq, (h.ordinary_of_queued ht hr hq).1]
    · simp [hq]
  have hnodup : (tokens ((d.table.filter Record.ordinary).filter (Record.queued token))).Nodup :=
    h.nodup_queued.sublist (List.filter_sublist.map _)
  rw [hfilter]
  generalize hrows : (d.table.filter Record.ordinary).filter (Record.queued token) = rows
  rw [hrows] at hnodup
  have htoken : ∀ r ∈ rows, r.token = token := by
    intro r hr
    rw [← hrows, List.mem_filter] at hr
    have hq := hr.2
    simp only [Record.queued, Bool.and_eq_true, beq_iff_eq] at hq
    exact hq.2
  match rows, hnodup, htoken with
  | [], _, _ => simp
  | [_], _, _ => simp
  | a :: b :: rest, hnodup, htoken =>
    have ha := htoken a (by simp)
    have hb := htoken b (by simp)
    simp [tokens, ha, hb] at hnodup

theorem Queued.cancel_table (h : Queued n d) (ht : token ∈ tokens d.issued) :
    (Transaction.cancel ⟨d.table, false⟩ token).1 = d.table.any (Record.queued token) ∧
      (Transaction.cancel ⟨d.table, false⟩ token).2.commit d.table =
        d.table.eraseP (Record.queued token) := by
  have hkept : (d.table.filter fun r => r.metadata || r.token != token) =
      d.table.eraseP (Record.queued token) := by
    rw [← filter_eq_eraseP (h.one_row ht)]
    refine List.filter_congr fun r _ => ?_
    simp [Record.queued, bne]
  have hremoved : ((d.table.eraseP (Record.queued token)).length != d.table.length) =
      d.table.any (Record.queued token) := by
    cases hany : d.table.any (Record.queued token) with
    | true =>
      have hpos : 0 < d.table.length := by
        obtain ⟨x, hx, -⟩ := List.any_eq_true.mp hany
        exact List.length_pos_of_mem hx
      rw [List.length_eraseP, if_pos hany]
      simp only [bne_iff_ne]
      omega
    | false =>
      rw [List.length_eraseP, if_neg (by simp [hany])]
      simp
  unfold Transaction.cancel
  simp only [hkept, hremoved]
  refine ⟨trivial, ?_⟩
  unfold Transaction.commit
  cases hany : d.table.any (Record.queued token) with
  | true => simp
  | false =>
    rw [List.any_eq_false] at hany
    simpa using (List.eraseP_of_forall_not hany).symm

/-! ## Runs -/

/-- A step that the callers of the queue take.  A `Waiter` is finished, and only a
private token is cancelled, once; the sections of PI futexes leave the other waiters
alone and draw their tokens from the same counter, which does not wrap around. -/
def Permitted (d : Domain W) : Action W → Prop
  | .store _ _ | .call _ _ => True
  | .enqueue .. | .appendPrivate .. => d.nextToken.toNat + 1 < 2 ^ 64
  | .cancel token =>
    token ∈ tokens d.issued ∧ token ∉ d.waiters ∧ (token, Retirement.cancelled) ∉ d.retired
  | .finish token _ => token ∈ d.waiters
  | .foreign table nextToken _ =>
    table.filter Record.ordinary = d.table.filter Record.ordinary ∧
    d.nextToken.toNat ≤ nextToken.toNat ∧
    ∀ r ∈ table, r.metadata = false → r.ordinary = false →
      r.token ∉ tokens d.issued ∧ r.token < nextToken.toNat

theorem issueToken_spec (h : 0 < d.nextToken.toNat) (hlt : d.nextToken.toNat + 1 < 2 ^ 64) :
    (issueToken d.nextToken).1 = d.nextToken.toNat ∧
      (issueToken d.nextToken).2.toNat = d.nextToken.toNat + 1 := by
  have hne : d.nextToken ≠ 0 := by
    intro hzero
    rw [hzero] at h
    cases h
  rw [issueToken, if_neg hne]
  refine ⟨rfl, ?_⟩
  have hone : (1 : BitVec 64).toNat = 1 := rfl
  rw [BitVec.toNat_add, hone]
  exact Nat.mod_eq_of_lt hlt

theorem ordinary_of_reserved (h : r.reserved = 0 ∨ r.reserved = PRIVATE_PARK) :
    r.ordinary = true := by
  unfold Record.ordinary Record.metadata Record.specialWait Record.piWait Record.piSource
  rcases h with h | h <;> rw [h] <;> rfl

/-- The cells of the waiters agree with the history. -/
structure Told (d : Domain W) : Prop where
  known : ∀ token ∈ d.waiters, token ∈ tokens d.issued
  woken : ∀ token : Nat, d.cells token = some true →
    (token, Retirement.selected) ∈ d.retired ∨ (token, Retirement.dead) ∈ d.retired
  ended : ∀ token : Nat, d.cells token = some false → (token, Retirement.cancelled) ∈ d.retired
  cancelled : ∀ token ∈ d.waiters, (token, Retirement.cancelled) ∈ d.retired →
    d.cells token = some false

theorem Told.more (h : Told d) (hissued : d'.issued = d.issued) (hwaiters : d'.waiters = d.waiters)
    (hcells : d'.cells = d.cells) (hretired : d'.retired = d.retired ++ gone)
    (hgone : ∀ token ∈ d.waiters, (token, Retirement.cancelled) ∉ gone) : Told d' := by
  refine ⟨fun token ht => ?_, fun token ht => ?_, fun token ht => ?_, fun token ht hc => ?_⟩
  · rw [hissued]
    exact h.known token (hwaiters ▸ ht)
  · rw [hcells] at ht
    rw [hretired]
    exact (h.woken token ht).imp (List.mem_append_left _) (List.mem_append_left _)
  · rw [hcells] at ht
    rw [hretired]
    exact List.mem_append_left _ (h.ended token ht)
  · rw [hwaiters] at ht
    rw [hretired] at hc
    rw [hcells]
    rcases List.mem_append.mp hc with hc | hc
    · exact h.cancelled token ht hc
    · exact absurd hc (hgone token ht)

/-- A new token joins, of a `Waiter` or not. -/
theorem Told.push (h : Told d) (hq : Queued n d) (hfresh : d.nextToken.toNat ≤ r.token)
    (hwaiters : waiters = d.waiters ∨ waiters = d.waiters ++ [r.token]) :
    Told ({ d with nextToken, waiters }.push r) := by
  have hknown : ∀ token ∈ waiters, token ∈ d.waiters ∨ token = r.token := by
    intro token ht
    rcases hwaiters with rfl | rfl
    · exact .inl ht
    · simpa using ht
  refine ⟨fun token ht => ?_, h.woken, h.ended, fun token ht hc => ?_⟩
  · simp only [Domain.push, tokens_append, List.mem_append]
    rcases hknown token ht with ht | rfl
    · exact .inl (h.known token ht)
    · exact .inr (by simp [tokens])
  · rcases hknown token ht with ht | rfl
    · exact h.cancelled token ht hc
    · have hmem : r.token ∈ tokens d.issued := hq.split.mem_iff.mp
        (List.mem_append_left _ (List.mem_map.mpr ⟨_, hc, rfl⟩))
      obtain ⟨x, hx, heq⟩ := List.mem_map.mp hmem
      have hlt := hq.fresh x hx
      omega

/-- The invariant of a domain. -/
structure Sound (n : Native W) (d : Domain W) : Prop where
  queued : Queued n d
  told : Told d

theorem Sound.initial (words : Key → BitVec 32) (w : W) : Sound n (.initial words w) :=
  ⟨.initial words w, nofun, nofun, nofun, nofun⟩

theorem Sound.idle (h : Sound n d) (hissued : d'.issued = d.issued)
    (hnext : d.nextToken.toNat ≤ d'.nextToken.toNat) (htable : d'.table = d.table)
    (hretired : d'.retired = d.retired) (hjoined : d'.joined = d.joined)
    (hclock : d'.clock = d.clock) (hwaiters : d'.waiters = d.waiters)
    (hcells : d'.cells = d.cells) : Sound n d' :=
  ⟨h.queued.rearrange (.idle hissued hnext htable hretired hjoined hclock),
    h.told.more hissued hwaiters hcells (hretired.trans (List.append_nil _).symm) nofun⟩

/-- A row joins what `reserve` has left. -/
theorem Sound.append (h : Sound n d) {r : Reserved W} (hr : r.Lawful n d.table)
    (hlt : d.nextToken.toNat + 1 < 2 ^ 64) {row : Record} (hordinary : row.ordinary = true)
    (htoken : row.token = (issueToken d.nextToken).1)
    (hwaiters : waiters = d.waiters ∨ waiters = d.waiters ++ [row.token]) :
    Sound n ({ d.settle r with nextToken := (issueToken d.nextToken).2, waiters }.push row) := by
  obtain ⟨hissue, hnext⟩ := issueToken_spec h.queued.started hlt
  have hqueued : Queued n (d.settle r) := h.queued.rearrange hr.rearranged
  have htold : Told (d.settle r) := by
    refine h.told.more rfl rfl rfl rfl fun token _ hmem => ?_
    cases (of_mem_retire hmem).1
  have hfresh : (d.settle r).nextToken.toNat ≤ row.token := by
    rw [htoken, hissue]
    exact Nat.le_refl _
  exact ⟨hqueued.push hordinary hfresh (by rw [htoken, hissue, hnext]; omega),
    htold.push hqueued hfresh hwaiters⟩

theorem Sound.enqueue (h : Sound n d) (hlt : d.nextToken.toNat + 1 < 2 ^ 64) (optimized : Bool)
    (load : Except Int Key) (expected bitset : BitVec 32) (who : Except Int ParkIdentity)
    (event : Except Int Unit) :
    Sound n (d.enqueue optimized n load expected bitset who event).1 := by
  obtain ⟨hissue, hnext⟩ := issueToken_spec h.queued.started hlt
  unfold Domain.enqueue
  cases load with
  | error e => exact h
  | ok key =>
    simp only
    split
    · exact h
    split
    · exact h.idle rfl (Nat.le_refl _) rfl rfl rfl rfl rfl rfl
    · cases who with
      | error e =>
        exact h.idle rfl (by simp only; omega) rfl rfl rfl rfl rfl rfl
      | ok who =>
        cases event with
        | error e => exact h.idle rfl (by simp only; omega) rfl rfl rfl rfl rfl rfl
        | ok _ =>
          refine h.append (reserve_lawful ..) hlt (ordinary_of_reserved (.inl ?_)) ?_
            (.inr ?_) <;> rfl

theorem Sound.appendPrivate (h : Sound n d) (hlt : d.nextToken.toNat + 1 < 2 ^ 64)
    (optimized : Bool) (key : Key) (who : ParkIdentity) (bitset : BitVec 32) :
    Sound n (d.appendPrivate optimized n key who bitset).1 := by
  unfold Domain.appendPrivate
  simp only
  split
  · exact h.idle rfl (Nat.le_refl _) rfl rfl rfl rfl rfl rfl
  · refine h.append (reserve_lawful ..) hlt (ordinary_of_reserved (.inr ?_)) ?_ (.inl ?_) <;> rfl

/-- The bitset that the waiters selected by a call meet. -/
def Call.bitset : Call → BitVec 32
  | .wake _ _ bitset | .transactionWake _ _ bitset => bitset
  | .requeue .. | .wakeOp .. | .transfer .. => MATCH_ANY

theorem Call.section_lawful (c : Call) (optimized : Bool) (d : Domain W) :
    ∃ target : Key, (c.section optimized n d).Lawful n target c.bitset d.table := by
  cases c with
  | wake key count bitset =>
    exact ⟨key, (wake_lawful optimized key key count bitset d.table d.world).1⟩
  | transactionWake key count bitset =>
    exact ⟨key, (Transaction.wakeSection_lawful optimized key key count bitset d.table d.world).1⟩
  | requeue key destination count moveCount expected =>
    exact ⟨destination, (requeue_lawful optimized key destination count moveCount _ d.table
      d.world).1⟩
  | wakeOp key count destination count2 operation =>
    exact ⟨key, (wakeOp_lawful optimized key key count destination count2 _ d.table d.world).1⟩
  | transfer source target count =>
    exact ⟨target, Transaction.transferSection_lawful optimized source target count MATCH_ANY
      d.table d.world⟩

theorem Sound.call (h : Sound n d) (optimized : Bool) (c : Call) :
    Sound n (d.act n (.call optimized c)).1 := by
  obtain ⟨target, hlawful⟩ := c.section_lawful (n := n) optimized d
  obtain ⟨kept, hd⟩ := hlawful.rearranged (c.store d.words)
  refine ⟨h.queued.rearrange hd, h.told.more rfl rfl rfl hd.retired fun token _ hmem => ?_⟩
  rcases List.mem_append.mp hmem with hmem | hmem
  · cases (of_mem_retire hmem).1
  · cases (of_mem_retire hmem).1

theorem Sound.cancel (h : Sound n d) (ht : token ∈ tokens d.issued)
    (hwaiter : token ∉ d.waiters) : Sound n (d.cancel token).1 := by
  obtain ⟨hremoved, htable⟩ := h.queued.cancel_table ht
  unfold Domain.cancel
  simp only [hremoved, htable]
  cases hany : d.table.any (Record.queued token) with
  | true =>
    simp only [if_true]
    refine ⟨h.queued.rearrange (h.queued.remove ht hany rfl rfl rfl rfl rfl rfl),
      h.told.more rfl rfl rfl rfl fun other hother hmem => ?_⟩
    obtain rfl : other = token := by simpa using hmem
    exact hwaiter hother
  | false =>
    rw [List.any_eq_false] at hany
    refine h.idle rfl (Nat.le_refl _) ?_ rfl rfl rfl rfl rfl
    exact List.eraseP_of_forall_not hany

theorem Queued.not_retired (h : Queued n d) (ht : token ∈ d.queued) :
    ∀ how : Retirement, (token, how) ∉ d.retired := by
  intro how hmem
  have hall := h.split.nodup_iff.mpr h.nodup
  exact (List.nodup_append.mp hall).2.2 token (List.mem_map.mpr ⟨_, hmem, rfl⟩) token ht rfl

theorem Queued.retired_of (h : Queued n d) (ht : token ∈ tokens d.issued)
    (hgone : token ∉ d.queued) : ∃ how : Retirement, (token, how) ∈ d.retired := by
  rcases List.mem_append.mp (h.split.mem_iff.mpr ht) with hmem | hmem
  · obtain ⟨⟨t, how⟩, hentry, rfl⟩ := List.mem_map.mp hmem
    exact ⟨how, hentry⟩
  · exact absurd hmem hgone

theorem Queued.one_way (h : Queued n d) {how how' : Retirement}
    (h₁ : (token, how) ∈ d.retired) (h₂ : (token, how') ∈ d.retired) : how = how' := by
  have hall := h.split.nodup_iff.mpr h.nodup
  have hnodup := (List.nodup_append.mp hall).1
  have heq := List.inj_on_of_nodup_map hnodup h₁ h₂ rfl
  exact (Prod.mk.inj heq).2

theorem Sound.finish (h : Sound n d) (ht : token ∈ d.waiters) (cancel : Bool) :
    Sound n (d.finish token cancel).1 := by
  have hissued := h.told.known token ht
  unfold Domain.finish
  cases hcell : d.cells token with
  | some woken => exact h
  | none =>
    simp only
    cases hany : d.table.any (Record.queued token) with
    | true =>
      simp only [if_true]
      cases cancel with
      | false => exact h
      | true =>
        simp only [if_true]
        refine ⟨h.queued.rearrange (h.queued.remove hissued hany rfl rfl rfl rfl rfl rfl),
          h.told.known, fun other hother => ?_, fun other hother => ?_,
          fun other hother hmem => ?_⟩
        · by_cases heq : other = token
          · subst heq
            simp at hother
          · simp only [Function.update_of_ne heq] at hother
            exact (h.told.woken other hother).imp (List.mem_append_left _) (List.mem_append_left _)
        · by_cases heq : other = token
          · subst heq
            simp
          · simp only [Function.update_of_ne heq] at hother
            exact List.mem_append_left _ (h.told.ended other hother)
        · by_cases heq : other = token
          · subst heq
            simp
          · simp only [Function.update_of_ne heq]
            refine h.told.cancelled other hother ?_
            simpa [heq] using hmem
    | false =>
      simp only [Bool.false_eq_true, if_false]
      refine ⟨h.queued.rearrange (.idle rfl (Nat.le_refl _) rfl rfl rfl rfl), h.told.known,
        fun other hother => ?_, fun other hother => ?_, fun other hother hmem => ?_⟩
      · by_cases heq : other = token
        · subst heq
          have hgone : other ∉ d.queued := by
            rw [← h.queued.any_queued_iff hissued, hany]
            simp
          obtain ⟨how, hhow⟩ := h.queued.retired_of hissued hgone
          cases how with
          | selected => exact .inl hhow
          | dead => exact .inr hhow
          | cancelled =>
            have hfalse := h.told.cancelled other ht hhow
            rw [hcell] at hfalse
            cases hfalse
        · simp only [Function.update_of_ne heq] at hother
          exact h.told.woken other hother
      · by_cases heq : other = token
        · subst heq
          simp at hother
        · simp only [Function.update_of_ne heq] at hother
          exact h.told.ended other hother
      · have hfalse := h.told.cancelled other hother hmem
        by_cases heq : other = token
        · subst heq
          rw [hcell] at hfalse
          cases hfalse
        · simpa only [Function.update_of_ne heq] using hfalse

theorem Sound.foreign (h : Sound n d) {table : List Record} {w : W}
    (hp : Permitted d (.foreign table nextToken w)) :
    Sound n { d with table, nextToken, world := w } := by
  obtain ⟨hfilter, hnext, hother⟩ := hp
  have hmem : ∀ r ∈ table, r.ordinary = true → r ∈ d.table := fun r hr ho =>
    (List.mem_filter.mp (hfilter ▸ List.mem_filter.mpr ⟨hr, ho⟩)).1
  refine ⟨⟨?_, h.queued.nodup, Nat.lt_of_lt_of_le h.queued.started hnext, fun r hr =>
    Nat.lt_of_lt_of_le (h.queued.fresh r hr) hnext, hother, fun r hr ho =>
    h.queued.origin r (hmem r hr ho) ho, ?_, fun r hr ho => h.queued.before r (hmem r hr ho) ho,
    h.queued.buried⟩, h.told.known, h.told.woken, h.told.ended, h.told.cancelled⟩
  · simp only [Domain.queued, hfilter]
    exact h.queued.split
  · simp only [hfilter]
    exact h.queued.sorted

theorem Sound.step (h : Sound n d) {a : Action W} (hp : Permitted d a) : Sound n (d.step n a) := by
  cases a with
  | store key value => exact h.idle rfl (Nat.le_refl _) rfl rfl rfl rfl rfl rfl
  | enqueue optimized load expected bitset who event => exact h.enqueue hp ..
  | appendPrivate optimized key who bitset => exact h.appendPrivate hp ..
  | call optimized c => exact h.call optimized c
  | cancel token => exact h.cancel hp.1 hp.2.1
  | finish token cancel => exact h.finish hp cancel
  | foreign table nextToken w => exact h.foreign hp

/-! ## The law -/

/-- The thread of the row is never found dead. -/
def Live (n : Native W) (r : Record) : Prop :=
  ∀ (key : Key) (w : W), (n.dead { r with key } w).1 = false

/-- The futex that a call wakes, how many waiters at most, and with which bitset. -/
def Call.wakes : Call → Option (Key × Nat × BitVec 32)
  | .wake key count bitset | .transactionWake key count bitset => some (key, count, bitset)
  | .requeue key _ count _ _ | .wakeOp key count _ _ _ => some (key, count, MATCH_ANY)
  | .transfer _ _ _ => none

/-- What a call does with the waiters. -/
structure CallLaw (d : Domain W) (c : Call) (s : Section W) : Prop where
  counted : ∀ m : Nat, s.result = .ok m → m = s.woken.length + s.moved.length
  matched : ∀ r ∈ s.woken, r.bitset &&& c.bitset ≠ 0
  order : ∀ x ∈ d.table, ∀ y ∈ s.woken, x.ordinary = true → x.key = y.key →
    x.bitset &&& c.bitset ≠ 0 → d.joined x.token < d.joined y.token → x ∈ s.woken ++ s.dropped
  transferred : s.moved.Sublist d.table
  missed : ∀ (key : Key) (count : Nat) (bitset : BitVec 32), c.wakes = some (key, count, bitset) →
    ∀ m : Nat, s.result = .ok m → m < count → ∀ r ∈ d.table, r.ordinary = true → r.key = key →
      r.bitset &&& bitset ≠ 0 → r ∈ s.woken ++ s.dropped

/-- The queue law in one state and for every step from it. -/
structure Law (n : Native W) (d : Domain W) : Prop where
  once : (d.retired.map Prod.fst ++ d.queued).Nodup
  all : ∀ r ∈ d.issued, r.token ∈ d.retired.map Prod.fst ++ d.queued
  live : ∀ r ∈ d.issued, Live n r → (r.token, Retirement.dead) ∉ d.retired
  call : ∀ (optimized : Bool) (c : Call), CallLaw d c (c.section optimized n d) ∧
    (d.step n (.call optimized c)).retired = d.retired ++
      ((c.section optimized n d).woken.map fun r => (r.token, .selected)) ++
      (c.section optimized n d).dropped.map fun r => (r.token, .dead)
  enqueue : ∀ (optimized : Bool) (load : Except Int Key) (expected bitset : BitVec 32)
    (who : Except Int ParkIdentity) (event : Except Int Unit) (token : Nat),
    (d.act n (.enqueue optimized load expected bitset who event)).2 = .token (.ok token) →
    ∃ key : Key, load = .ok key ∧ d.words key = expected ∧
      ∃ r ∈ (d.step n (.enqueue optimized load expected bitset who event)).table,
        r.token = token ∧ r.key = key ∧ r.bitset = bitset ∧ r.ordinary = true
  finish : ∀ r ∈ d.issued, r.token ∈ d.waiters → Live n r → ∀ cancel : Bool,
    ((d.act n (.finish r.token cancel)).2 = .flag true ↔
      (r.token, Retirement.selected) ∈ d.retired) ∧
    ((d.act n (.finish r.token cancel)).2 = .flag false → cancel = true →
      (r.token, Retirement.cancelled) ∈ (d.step n (.finish r.token cancel)).retired)
  cancel : ∀ r ∈ d.issued, Permitted d (.cancel r.token) → Live n r →
    ((d.act n (.cancel r.token)).2 = .flag false ↔ (r.token, Retirement.selected) ∈ d.retired) ∧
    ((d.act n (.cancel r.token)).2 = .flag true →
      (r.token, Retirement.cancelled) ∈ (d.step n (.cancel r.token)).retired)

theorem Queued.live (h : Queued n d) (hr : r ∈ d.issued) (hlive : Live n r) :
    (r.token, Retirement.dead) ∉ d.retired := by
  intro hmem
  obtain ⟨x, hx, htoken, key, w, hdead⟩ := h.buried r.token hmem
  obtain rfl : x = r := List.inj_on_of_nodup_map h.nodup hx hr htoken
  rw [hlive key w] at hdead
  cases hdead

theorem Sound.callLaw (h : Sound n d) (optimized : Bool) (c : Call) :
    CallLaw d c (c.section optimized n d) := by
  obtain ⟨target, hlawful⟩ := c.section_lawful (n := n) optimized d
  refine ⟨hlawful.counted, hlawful.matched, fun x hx y hy => ?_, hlawful.order, ?_⟩
  · exact hlawful.first (fun r => d.joined r.token) h.queued.sorted x hx y hy
  · intro key count bits hwakes
    cases c with
    | wake key' count' bits' =>
      cases hwakes
      exact (wake_lawful optimized key key count bits d.table d.world).2
    | transactionWake key' count' bits' =>
      cases hwakes
      exact (Transaction.wakeSection_lawful optimized key key count bits d.table d.world).2
    | requeue key' destination count' moveCount expected =>
      cases hwakes
      exact (requeue_lawful optimized key destination count moveCount _ d.table d.world).2
    | wakeOp key' count' destination count2 operation =>
      cases hwakes
      exact (wakeOp_lawful optimized key key count destination count2 _ d.table d.world).2
    | transfer => cases hwakes

theorem Sound.enqueued {optimized : Bool} {load : Except Int Key} {expected bitset : BitVec 32}
    {who : Except Int ParkIdentity} {event : Except Int Unit}
    (h : (d.enqueue optimized n load expected bitset who event).2 = .token (.ok token)) :
    ∃ key : Key, load = .ok key ∧ d.words key = expected ∧
      ∃ r ∈ (d.enqueue optimized n load expected bitset who event).1.table,
        r.token = token ∧ r.key = key ∧ r.bitset = bitset ∧ r.ordinary = true := by
  unfold Domain.enqueue at h ⊢
  cases load with
  | error e => cases h
  | ok key =>
    simp only at h ⊢
    split at h
    · cases h
    · next hword =>
      rw [if_neg hword]
      split at h
      · cases h
      · next hroom =>
        rw [if_neg hroom]
        cases who with
        | error e => cases h
        | ok who =>
          cases event with
          | error e => cases h
          | ok _ =>
            cases h
            exact ⟨key, rfl, not_not.mp hword, _, List.mem_append_right _
              List.mem_cons_self, rfl, rfl, rfl, ordinary_of_reserved (.inl rfl)⟩

theorem Sound.selected_iff (h : Sound n d) (hr : r ∈ d.issued) (hlive : Live n r)
    (hcancelled : (r.token, Retirement.cancelled) ∉ d.retired) :
    r.token ∉ d.queued ↔ (r.token, Retirement.selected) ∈ d.retired := by
  have hissued : r.token ∈ tokens d.issued := List.mem_map_of_mem hr
  constructor
  · intro hgone
    obtain ⟨how, hhow⟩ := h.queued.retired_of hissued hgone
    cases how with
    | selected => exact hhow
    | dead => exact absurd hhow (h.queued.live hr hlive)
    | cancelled => exact absurd hhow hcancelled
  · intro hselected hqueued
    exact h.queued.not_retired hqueued _ hselected

theorem Sound.finished (h : Sound n d) (hr : r ∈ d.issued) (hwaiter : r.token ∈ d.waiters)
    (hlive : Live n r) (cancel : Bool) :
    ((d.finish r.token cancel).2 = .flag true ↔ (r.token, Retirement.selected) ∈ d.retired) ∧
    ((d.finish r.token cancel).2 = .flag false → cancel = true →
      (r.token, Retirement.cancelled) ∈ (d.finish r.token cancel).1.retired) := by
  have hissued := h.told.known _ hwaiter
  unfold Domain.finish
  cases hcell : d.cells r.token with
  | some woken =>
    cases woken with
    | true =>
      have hselected : (r.token, Retirement.selected) ∈ d.retired :=
        (h.told.woken _ hcell).resolve_right (h.queued.live hr hlive)
      simp [hselected]
    | false =>
      have hcancelled := h.told.ended _ hcell
      have hnot : (r.token, Retirement.selected) ∉ d.retired := fun hselected =>
        nomatch h.queued.one_way hselected hcancelled
      simp [hnot, hcancelled]
  | none =>
    have hcancelled : (r.token, Retirement.cancelled) ∉ d.retired := by
      intro hmem
      rw [h.told.cancelled _ hwaiter hmem] at hcell
      cases hcell
    have hiff := h.selected_iff hr hlive hcancelled
    have hany := h.queued.any_queued_iff hissued
    simp only
    by_cases hq : r.token ∈ d.queued
    · have hnot := (not_congr hiff).mp (not_not.mpr hq)
      rw [if_pos (hany.mpr hq)]
      cases cancel <;> simp [hnot]
    · rw [if_neg (fun hh => hq (hany.mp hh))]
      simp [hiff.mp hq]

theorem Sound.cancelled (h : Sound n d) (hr : r ∈ d.issued) (hp : Permitted d (.cancel r.token))
    (hlive : Live n r) :
    ((d.cancel r.token).2 = .flag false ↔ (r.token, Retirement.selected) ∈ d.retired) ∧
    ((d.cancel r.token).2 = .flag true →
      (r.token, Retirement.cancelled) ∈ (d.cancel r.token).1.retired) := by
  obtain ⟨hissued, -, hcancelled⟩ := hp
  have hiff := h.selected_iff hr hlive hcancelled
  have hany := h.queued.any_queued_iff hissued
  obtain ⟨hremoved, -⟩ := h.queued.cancel_table hissued
  unfold Domain.cancel
  simp only [hremoved, Answer.flag.injEq]
  refine ⟨?_, fun hflag => by simp [hflag]⟩
  rw [← hiff, ← hany, Bool.not_eq_true]

theorem Sound.law (h : Sound n d) : Law n d where
  once := h.queued.split.nodup_iff.mpr h.queued.nodup
  all _ hr := h.queued.split.mem_iff.mpr (List.mem_map_of_mem hr)
  live _ hr hlive := h.queued.live hr hlive
  call optimized c := ⟨h.callLaw optimized c, rfl⟩
  enqueue _ _ _ _ _ _ _ := Sound.enqueued
  finish _ hr hwaiter hlive cancel := h.finished hr hwaiter hlive cancel
  cancel _ hr hp hlive := h.cancelled hr hp hlive

/-- After every run of permitted steps, each token that was issued is queued or was
retired in one way; no live waiter was dropped; a call that answers a count has counted
the waiters it selected and moved, in the order in which they joined, and has left none
behind if the count is short; an enqueue that succeeds has seen the expected value; and
what a waiter learns is whether it was selected. -/
theorem queue_law (n : Native W) (words : Key → BitVec 32) (w : W) (actions : List (Action W))
    (h : Library.EveryStep (Domain.step n) Permitted (.initial words w) actions) :
    Law n (Library.run (Domain.step n) (.initial words w) actions) := by
  have hsound : Sound n (Library.run (Domain.step n) (.initial words w) actions) :=
    Library.run_preserves (fun _ _ hs hp => hs.step hp) (.initial words w) h
  exact hsound.law

/-! ## An error behind a selection -/

/-- A host that cannot open the event of the second token. -/
def brokenEvent : Native Unit where
  dead _ w := (false, w)
  openEvent r w := (if r.token = 2 then .error 5 else .ok (), w)
  setEvent _ w := (.ok (), w)

def anyKey : Key := .replicate 5 0

/-- Two waiters of one futex join. -/
def twoJoin : List (Action Unit) :=
  List.replicate 2 (.enqueue false (.ok anyKey) 0 1 (.ok ⟨0, 0, 0⟩) (.ok ()))

/-- The first waiter is selected by a wake that answers an error and no count. -/
theorem selected_uncounted :
    let d := Library.run (Domain.step brokenEvent) (.initial (fun _ => 0) ()) twoJoin
    (d.act brokenEvent (.call false (.wake anyKey 2 1))).2 = .count (.error 5) ∧
      (d.step brokenEvent (.call false (.wake anyKey 2 1))).retired = [(1, .selected)] := by
  decide

theorem permitted_twoJoin : Library.EveryStep (Domain.step brokenEvent) Permitted
    (.initial (fun _ => 0) ()) twoJoin := by
  refine ⟨?_, ?_, trivial⟩ <;> (unfold Permitted; decide)

theorem queue_law_twoJoin :
    Law brokenEvent (Library.run (Domain.step brokenEvent) (.initial (fun _ => 0) ()) twoJoin) :=
  queue_law brokenEvent (fun _ => 0) () twoJoin permitted_twoJoin

end Kinakaze.Futex
