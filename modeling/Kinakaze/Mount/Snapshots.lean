import Kinakaze.Mount.Shared

/-!
# Snapshots are atomic

The bank of the publication word holds the value published last, and while the word
stays, only the other bank is written.
-/

namespace Kinakaze.Mount.Shared

open Library

variable {s : Store}

/-- The bank holds a value. -/
structure Bank.Holds (bank : Bank) (bytes : Bytes) : Prop where
  length : bank.length = bytes.length
  words : ∀ index : Nat, 8 * index < bytes.length → bank.words index = wordAt bytes index

/-- The mutex is needed where the thread is. -/
def Thread.holds : Thread → Bool
  | .starting .read | .measuring .read _ | .copying .read _ _ _ => false
  | .starting _ | .measuring _ _ | .copying _ _ _ _ => true
  | .committing _ _ | .staging _ _ _ | .publishing _ _ | .leaving => true
  | .idle | .dead | .acquiring _ | .checking _ _ => false

/-- What a thread relies on.  A reader relies on its words only as long as the
publication word has not moved. -/
def Thread.Lawful (s : Store) : Thread → Prop
  | .idle | .dead | .acquiring _ | .starting _ | .leaving => True
  | .measuring job revision =>
    revision ≤ s.publication ∧ ((Thread.measuring job revision).holds = true →
      revision = s.publication)
  | .copying job revision length words =>
    revision ≤ s.publication ∧
    ((Thread.copying job revision length words).holds = true → revision = s.publication) ∧
    (revision = s.publication → ∀ value : Bytes, s.published[revision]? = some value →
      length = value.length ∧ words = (List.range words.length).map (wordAt value)) ∧
    ∀ bytes : Bytes, job = .replace bytes → bytes.length ≤ BANK_SIZE - 8
  | .checking revision result =>
    revision ≤ s.publication ∧ (revision = s.publication →
      ∃ value : Bytes, s.published[revision]? = some value ∧ result = .ok value)
  | .committing revision bytes => revision = s.publication ∧ bytes.length ≤ BANK_SIZE - 8
  | .staging revision bytes index =>
    revision = s.publication ∧ bytes.length ≤ BANK_SIZE - 8 ∧ revision + 1 < 2 ^ 64 ∧
    ∀ i : Nat, i < index → 8 * i < bytes.length → (s.bank (revision + 1)).words i = wordAt bytes i
  | .publishing revision bytes =>
    revision = s.publication ∧ bytes.length ≤ BANK_SIZE - 8 ∧ revision + 1 < 2 ^ 64 ∧
    (s.bank (revision + 1)).Holds bytes

structure Consistent (s : Store) : Prop where
  count : s.published.length = s.publication + 1
  current : ∀ value : Bytes, s.published[s.publication]? = some value →
    (s.bank s.publication).Holds value ∧ value.length ≤ BANK_SIZE - 8
  held : ∀ t : Nat, (s.threads t).holds = true → s.holder = some t
  lawful : ∀ t : Nat, (s.threads t).Lawful s
  seen : ∀ entry ∈ s.seen, s.published[entry.1]? = some entry.2

theorem Consistent.initial : Consistent .initial where
  count := rfl
  current value hvalue := by
    obtain rfl : [] = value := by simpa [Store.initial] using hvalue
    exact ⟨⟨rfl, by simp⟩, by simp⟩
  held t ht := by simp [Store.initial, Thread.holds] at ht
  lawful t := trivial
  seen := nofun

theorem Consistent.value (h : Consistent s) :
    ∃ value : Bytes, s.published[s.publication]? = some value :=
  ⟨_, List.getElem?_eq_getElem (by rw [h.count]; exact Nat.lt_succ_self _)⟩

/-! ## Steps that move one thread -/

/-- Two stores that differ in their threads, their mutex and what was read. -/
structure SameData (s s' : Store) : Prop where
  publication : s'.publication = s.publication
  banks : s'.banks = s.banks
  published : s'.published = s.published

variable {thread : Thread} {s' : Store}

theorem Thread.Lawful.sameData (h : thread.Lawful s)
    (hsame : SameData s s') : thread.Lawful s' := by
  obtain ⟨hpublication, hbanks, hpublished⟩ := hsame
  cases thread with
  | idle | dead | acquiring | starting | leaving => trivial
  | measuring | committing => simpa only [Thread.Lawful, hpublication] using h
  | copying job revision length words =>
    simpa only [Thread.Lawful, hpublication, hpublished] using h
  | checking revision result => simpa only [Thread.Lawful, hpublication, hpublished] using h
  | staging | publishing =>
    simpa only [Thread.Lawful, Store.bank, hpublication, hbanks] using h

variable {t revision : Nat}

/-- A step that moves thread `t` only, and at most takes the mutex, lets it go or notes
what was read. -/
theorem Consistent.move (h : Consistent s) (hsame : SameData s s')
    (hthreads : s'.threads = Function.update s.threads t thread)
    (hholder : ∀ u : Nat, u ≠ t → s.holder = some u → s'.holder = some u)
    (hheld : thread.holds = true → s'.holder = some t) (hlawful : thread.Lawful s)
    (hseen : ∀ entry ∈ s'.seen, entry ∈ s.seen ∨ s.published[entry.1]? = some entry.2) :
    Consistent s' where
  count := by rw [hsame.published, hsame.publication, h.count]
  current value hvalue := by
    rw [hsame.published, hsame.publication] at hvalue
    rw [Store.bank, hsame.banks, hsame.publication]
    exact h.current value hvalue
  held u hu := by
    rw [hthreads] at hu
    by_cases hut : u = t
    · subst hut
      rw [Function.update_self] at hu
      exact hheld hu
    · rw [Function.update_of_ne hut] at hu
      exact hholder u hut (h.held u hu)
  lawful u := by
    rw [hthreads]
    by_cases hut : u = t
    · subst hut
      rw [Function.update_self]
      exact hlawful.sameData hsame
    · rw [Function.update_of_ne hut]
      exact (h.lawful u).sameData hsame
  seen entry hentry := by
    rw [hsame.published]
    rcases hseen entry hentry with hold | hnew
    · exact h.seen entry hold
    · exact hnew

theorem Consistent.go (h : Consistent s) (hheld : thread.holds = true → (s.threads t).holds = true)
    (hlawful : thread.Lawful s) : Consistent (s.go t thread) :=
  h.move ⟨rfl, rfl, rfl⟩ rfl (fun _ _ hu => hu) (fun hh => h.held t (hheld hh)) hlawful
    fun _ hentry => .inl hentry

variable {bytes : Bytes}

theorem Consistent.see_go (h : Consistent s) (hvalue : s.published[revision]? = some bytes)
    (hheld : thread.holds = true → (s.threads t).holds = true) (hlawful : thread.Lawful s) :
    Consistent ((s.see revision bytes).go t thread) := by
  refine h.move ⟨rfl, rfl, rfl⟩ rfl (fun _ _ hu => hu) (fun hh => h.held t (hheld hh)) hlawful
    fun entry hentry => ?_
  rcases List.mem_append.mp hentry with hold | hnew
  · exact .inl hold
  · obtain rfl := List.mem_singleton.mp hnew
    exact .inr hvalue

/-! ## Steps that write -/

theorem Thread.Lawful.other (h : thread.Lawful s) (hholds : thread.holds = false)
    (hwrite : s'.publication = s.publication ∧ s'.published = s.published ∨
      s.publication < s'.publication) : thread.Lawful s' := by
  rcases hwrite with ⟨hpublication, hpublished⟩ | hlt
  · cases thread with
    | idle | dead | acquiring | starting | leaving => trivial
    | measuring job revision => simpa only [Thread.Lawful, hpublication] using h
    | copying job revision length words =>
      simpa only [Thread.Lawful, hpublication, hpublished] using h
    | checking revision result => simpa only [Thread.Lawful, hpublication, hpublished] using h
    | committing | staging | publishing => cases hholds
  · cases thread with
    | idle | dead | acquiring | starting | leaving => trivial
    | measuring job revision =>
      exact ⟨h.1.trans hlt.le, fun hheld => by rw [hholds] at hheld; cases hheld⟩
    | copying job revision length words =>
      have hle := h.1
      exact ⟨h.1.trans hlt.le, fun hheld => (by rw [hholds] at hheld; cases hheld),
        fun heq => by omega, h.2.2.2⟩
    | checking revision result =>
      have hle := h.1
      exact ⟨h.1.trans hlt.le, fun heq => by omega⟩
    | committing | staging | publishing => cases hholds

theorem Consistent.alone {u : Nat} (h : Consistent s) (ht : (s.threads t).holds = true)
    (hut : u ≠ t) : (s.threads u).holds = false := by
  by_contra hu
  have hheld := h.held u (by simpa using hu)
  rw [h.held t ht] at hheld
  exact hut (Option.some.inj hheld).symm

theorem Consistent.setBank {bank : Bank} (h : Consistent s) (ht : (s.threads t).holds = true)
    (hlawful : thread.Lawful (s.setBank (s.publication + 1) bank)) :
    Consistent ((s.setBank (s.publication + 1) bank).go t thread) where
  count := h.count
  current value hvalue := by
    have hother : s.publication % 2 ≠ (s.publication + 1) % 2 := by omega
    obtain ⟨hcurrent, hsize⟩ := h.current value hvalue
    have hbank : ((s.setBank (s.publication + 1) bank).go t thread).bank s.publication =
        s.bank s.publication := by
      simp [Store.bank, Store.go, Store.setBank, Function.update_of_ne hother]
    exact ⟨hbank.symm ▸ hcurrent, hsize⟩
  held u hu := by
    by_cases hut : u = t
    · exact hut ▸ h.held t ht
    · simp only [Store.go, Function.update_of_ne hut] at hu
      exact h.held u hu
  lawful u := by
    by_cases hut : u = t
    · subst hut
      simp only [Store.go, Function.update_self]
      exact hlawful.sameData ⟨rfl, rfl, rfl⟩
    · simp only [Store.go, Function.update_of_ne hut]
      exact (h.lawful u).other (h.alone ht hut) (.inl ⟨rfl, rfl⟩)
  seen := h.seen

theorem Consistent.publish (h : Consistent s) (ht : s.threads t = .publishing s.publication bytes) :
    Consistent { s.go t .leaving with
      publication := s.publication + 1, published := s.published ++ [bytes] } := by
  have hlawful := h.lawful t
  have hheld : (s.threads t).holds = true := by rw [ht]; rfl
  rw [ht] at hlawful
  obtain ⟨-, hsize, -, hholds⟩ := hlawful
  refine ⟨by simp [h.count], fun value hvalue => ?_, fun u hu => ?_, fun u => ?_,
    fun entry hentry => ?_⟩
  · have hnew : value = bytes := by
      simp only at hvalue
      rw [List.getElem?_append_right (by rw [h.count]), h.count, Nat.sub_self] at hvalue
      simpa using hvalue.symm
    subst hnew
    exact ⟨hholds, hsize⟩
  · by_cases hut : u = t
    · subst hut
      exact h.held u hheld
    · simp only [Store.go, Function.update_of_ne hut] at hu
      exact h.held u hu
  · by_cases hut : u = t
    · subst hut
      simp only [Store.go, Function.update_self]
      trivial
    · simp only [Store.go, Function.update_of_ne hut]
      exact (h.lawful u).other (h.alone hheld hut) (.inr (Nat.lt_succ_self _))
  · have hold := h.seen entry hentry
    have hlt := (List.getElem?_eq_some_iff.mp hold).1
    exact (List.getElem?_append_left hlt).trans hold

/-! ## The invariant -/

variable {job : Job}

theorem Consistent.measure (h : Consistent s) (ht : s.threads t = .measuring job revision) :
    Consistent (s.measure t job revision (s.bank revision).length) := by
  obtain ⟨value, hvalue⟩ := h.value
  obtain ⟨hbank, hsize⟩ := h.current value hvalue
  have hlawful := h.lawful t
  rw [ht] at hlawful
  obtain ⟨hle, hcurrent⟩ := hlawful
  have hsame : revision = s.publication → (s.bank revision).length = value.length := by
    rintro rfl
    exact hbank.length
  have hcopying : (∀ bytes : Bytes, job = .replace bytes → bytes.length ≤ BANK_SIZE - 8) →
      (Thread.copying job revision (s.bank revision).length []).Lawful s := by
    refine fun hfits => ⟨hle, fun hheld => hcurrent ?_, fun heq v hv => ?_, hfits⟩
    · cases job <;> exact hheld
    · rw [heq, hvalue] at hv
      cases hv
      exact ⟨hsame heq, rfl⟩
  unfold Store.measure
  split
  · next hlong =>
    unfold Store.refuse
    have hmoved : revision ≠ s.publication := fun heq => by
      have hlength := hsame heq
      omega
    cases job with
    | read => exact h.go (by simp [Thread.holds]) ⟨hle, fun heq => absurd heq hmoved⟩
    | update | replace => exact absurd (hcurrent rfl) hmoved
  · cases job with
    | read => exact h.go (by simp [Thread.holds]) (hcopying nofun)
    | update action => exact h.go (by simp [ht, Thread.holds]) (hcopying nofun)
    | replace bytes =>
      simp only
      split
      · exact h.go (by simp [ht, Thread.holds]) trivial
      · next hfits =>
        split
        · exact h.go (by simp [ht, Thread.holds]) ⟨hcurrent rfl, by omega⟩
        · refine h.go (by simp [ht, Thread.holds]) (hcopying fun new hnew => ?_)
          cases hnew
          omega

variable {words : List (BitVec 64)}

section

variable (h : Consistent s)
include h

theorem Consistent.copyWord {length : Nat}
    (ht : s.threads t = .copying job revision length words) (hmore : 8 * words.length < length) :
    Consistent (s.copyWord t job revision length words ((s.bank revision).words words.length)) := by
  obtain ⟨value, hvalue⟩ := h.value
  obtain ⟨hbank, -⟩ := h.current value hvalue
  have hlawful := h.lawful t
  rw [ht] at hlawful
  obtain ⟨hle, hcurrent, hwords, hfits⟩ := hlawful
  have hcopying : (Thread.copying job revision length
      (words ++ [(s.bank revision).words words.length])).Lawful s := by
    refine ⟨hle, fun hheld => hcurrent ?_, fun heq v hv => ?_, hfits⟩
    · cases job <;> exact hheld
    · obtain ⟨hlength, hsofar⟩ := hwords heq v hv
      obtain rfl : value = v := by
        rw [heq, hvalue] at hv
        exact Option.some.inj hv
      refine ⟨hlength, ?_⟩
      rw [List.length_append, List.length_singleton, List.range_succ, List.map_append, ← hsofar,
        heq, hbank.words words.length (by omega)]
      rfl
  unfold Store.copyWord
  cases job with
  | read => exact h.go (by simp [Thread.holds]) hcopying
  | update action => exact h.go (by simp [ht, Thread.holds]) hcopying
  | replace bytes =>
    simp only
    split
    · exact h.go (by simp [ht, Thread.holds]) hcopying
    · exact h.go (by simp [ht, Thread.holds]) ⟨hcurrent rfl, hfits bytes rfl⟩

theorem Consistent.copied {length : Nat}
    (ht : s.threads t = .copying job revision length words) (hend : ¬8 * words.length < length) :
    Consistent (s.copied t job revision (bytesOf words length)) := by
  obtain ⟨value, hvalue⟩ := h.value
  have hlawful := h.lawful t
  rw [ht] at hlawful
  obtain ⟨hle, hcurrent, hwords, -⟩ := hlawful
  have hbytes : revision = s.publication →
      s.published[revision]? = some (bytesOf words length) := by
    intro heq
    rw [← heq] at hvalue
    obtain ⟨rfl, hall⟩ := hwords heq value hvalue
    rw [hvalue, hall, bytesOf_wordAt (by omega)]
  unfold Store.copied
  cases job with
  | read => exact h.go (by simp [Thread.holds]) ⟨hle, fun heq => ⟨_, hbytes heq, rfl⟩⟩
  | update action =>
    have heq := hcurrent rfl
    have hold := hbytes heq
    have hheld : ∀ thread : Thread, thread.holds = true → (s.threads t).holds = true :=
      fun _ _ => by rw [ht]; rfl
    simp only
    split
    · exact h.see_go hold (hheld _) trivial
    · next new _ =>
      split
      · exact h.see_go hold (hheld _) trivial
      · next hfits =>
        split
        · exact h.see_go hold (hheld _) trivial
        · exact h.see_go hold (hheld _) ⟨heq, by omega⟩
  | replace bytes => exact h.go (by simp [ht, Thread.holds]) trivial

theorem Consistent.staging {index : Nat}
    (ht : s.threads t = .staging revision bytes index) (ok : Bool) :
    Consistent (s.advance t ok) := by
  have hlawful := h.lawful t
  rw [ht] at hlawful
  obtain ⟨rfl, hsize, hrevision, hwords⟩ := hlawful
  have hheld : (s.threads t).holds = true := by rw [ht]; rfl
  have hbank : ∀ bank : Bank,
      (s.setBank (s.publication + 1) bank).bank (s.publication + 1) = bank :=
    fun bank => Function.update_self ..
  unfold Store.advance
  rw [ht]
  simp only
  split
  · next hmore =>
    refine h.setBank hheld ⟨rfl, hsize, hrevision, fun i hi hlt => ?_⟩
    rw [hbank]
    by_cases hlast : i = index
    · subst hlast
      simp
    · simp only [Function.update_of_ne hlast]
      exact hwords i (by omega) hlt
  · next hend =>
    refine h.setBank hheld ⟨rfl, hsize, hrevision, ?_⟩
    rw [hbank]
    exact ⟨rfl, fun i hi => hwords i (by omega) hi⟩

theorem Consistent.advance (t : Nat) (ok : Bool) : Consistent (s.advance t ok) := by
  have hlawful := h.lawful t
  cases ht : s.threads t with
  | idle | dead =>
    rw [Store.advance, ht]
    exact h
  | staging revision bytes index => exact h.staging ht ok
  | acquiring job =>
    rw [Store.advance, ht]
    simp only
    split
    · exact h.go (by simp [Thread.holds]) trivial
    split
    · next hfree =>
      refine h.move ⟨rfl, rfl, rfl⟩ rfl (fun u _ hu => ?_) (fun _ => rfl) trivial
        fun _ hentry => .inl hentry
      rw [hu] at hfree
      cases hfree
    · exact h
  | starting job =>
    rw [Store.advance, ht]
    refine h.go ?_ ⟨le_rfl, fun _ => rfl⟩
    cases job <;> simp [ht, Thread.holds]
  | measuring job revision =>
    rw [Store.advance, ht]
    exact h.measure ht
  | copying job revision length words =>
    rw [Store.advance, ht]
    simp only
    split
    · next hmore => exact h.copyWord ht hmore
    · next hend => exact h.copied ht hend
  | checking revision result =>
    rw [ht] at hlawful
    rw [Store.advance, ht]
    simp only
    split
    · next heq =>
      obtain ⟨value, hvalue, rfl⟩ := hlawful.2 heq.symm
      exact h.see_go hvalue (by simp [Thread.holds]) trivial
    · exact h.go (by simp [Thread.holds]) trivial
  | committing revision bytes =>
    rw [ht] at hlawful
    rw [Store.advance, ht]
    simp only
    split
    · next hgo =>
      simp only [Bool.and_eq_true, decide_eq_true_eq] at hgo
      exact h.go (by simp [ht, Thread.holds]) ⟨hlawful.1, hlawful.2, hgo.1, by simp⟩
    · exact h.go (by simp [ht, Thread.holds]) trivial
  | publishing revision bytes =>
    rw [ht] at hlawful
    obtain rfl := hlawful.1
    rw [Store.advance, ht]
    exact h.publish ht
  | leaving =>
    rw [Store.advance, ht]
    refine h.move ⟨rfl, rfl, rfl⟩ rfl (fun u hut hu => ?_) (by simp [Thread.holds]) trivial
      fun _ hentry => .inl hentry
    have hheld := h.held t (by rw [ht]; rfl)
    rw [hheld] at hu
    exact absurd (Option.some.inj hu).symm hut

theorem Consistent.step (a : Action) : Consistent (s.step a) := by
  cases a with
  | advance t ok => exact h.advance t ok
  | begin t job =>
    simp only [Store.step]
    split
    · cases job with
      | read | update | replace => exact h.go (by simp [Thread.holds]) trivial
    · exact h
  | die t =>
    refine h.move ⟨rfl, rfl, rfl⟩ rfl (fun u hut hu => ?_) (by simp [Thread.holds]) trivial
      fun _ hentry => .inl hentry
    have hne : s.holder ≠ some t := by
      rw [hu]
      simpa using hut
    exact (if_neg hne).trans hu

theorem Consistent.run (actions : List Action) : Consistent (Library.run Store.step s actions) := by
  induction actions generalizing s with
  | nil => exact h
  | cons a rest ih => exact ih (h.step a)

end

/-! ## Publications -/

/-- The revisions and what was published under them stay, or the thread that holds the
mutex publishes one more. -/
inductive Published (s s' : Store) (a : Action) : Prop
  | same (hpublication : s'.publication = s.publication)
      (hpublished : s'.published = s.published)
  | next (t : Nat) (ok : Bool) (bytes : Bytes) (ha : a = .advance t ok)
      (ht : s.threads t = .publishing s.publication bytes) (hholder : s.holder = some t)
      (hpublication : s'.publication = s.publication + 1)
      (hpublished : s'.published = s.published ++ [bytes])

theorem copied_published (t : Nat) (job : Job) (revision : Nat) (bytes : Bytes) :
    (s.copied t job revision bytes).publication = s.publication ∧
      (s.copied t job revision bytes).published = s.published := by
  unfold Store.copied
  cases job with
  | read | replace => exact ⟨rfl, rfl⟩
  | update action =>
    simp only
    split
    · exact ⟨rfl, rfl⟩
    · split
      · exact ⟨rfl, rfl⟩
      · split <;> exact ⟨rfl, rfl⟩

theorem measure_published (t : Nat) (job : Job) (revision length : Nat) :
    (s.measure t job revision length).publication = s.publication ∧
      (s.measure t job revision length).published = s.published := by
  unfold Store.measure Store.refuse
  cases job with
  | read | update => split <;> exact ⟨rfl, rfl⟩
  | replace bytes =>
    simp only
    split
    · exact ⟨rfl, rfl⟩
    · split
      · exact ⟨rfl, rfl⟩
      · split <;> exact ⟨rfl, rfl⟩

theorem Consistent.published (h : Consistent s) (a : Action) : Published s (s.step a) a := by
  cases a with
  | begin t job =>
    simp only [Store.step]
    split
    · cases job with
      | read | update | replace => exact .same rfl rfl
    · exact .same rfl rfl
  | die t => exact .same rfl rfl
  | advance t ok =>
    have hlawful := h.lawful t
    rw [Store.step]
    cases ht : s.threads t with
    | publishing revision bytes =>
      rw [ht] at hlawful
      obtain rfl := hlawful.1
      have hheld := h.held t (by rw [ht]; rfl)
      rw [Store.advance, ht]
      exact .next t ok bytes rfl ht hheld rfl rfl
    | measuring job revision =>
      rw [Store.advance, ht]
      exact .same (measure_published ..).1 (measure_published ..).2
    | copying job revision length words =>
      rw [Store.advance, ht]
      simp only
      split
      · unfold Store.copyWord
        cases job with
        | read | update => exact .same rfl rfl
        | replace bytes => simp only; split <;> exact .same rfl rfl
      · exact .same (copied_published ..).1 (copied_published ..).2
    | acquiring job =>
      rw [Store.advance, ht]
      simp only
      split
      · exact .same rfl rfl
      · split <;> exact .same rfl rfl
    | checking revision result =>
      rw [Store.advance, ht]
      simp only
      split
      · cases result <;> exact .same rfl rfl
      · exact .same rfl rfl
    | committing revision bytes | staging revision bytes index =>
      rw [Store.advance, ht]
      simp only
      split <;> exact .same rfl rfl
    | idle | dead | starting job | leaving =>
      rw [Store.advance, ht]
      exact .same rfl rfl

theorem Consistent.published_run (h : Consistent s) (actions : List Action) :
    s.published <+: (Library.run Store.step s actions).published := by
  induction actions generalizing s with
  | nil => exact List.prefix_rfl
  | cons a rest ih =>
    refine List.IsPrefix.trans ?_ (ih (h.step a))
    cases h.published a with
    | same _ hpublished => exact hpublished ▸ List.prefix_rfl
    | next t ok bytes _ _ _ _ hpublished =>
      rw [hpublished]
      exact List.prefix_append _ _

/-- In every run each value that was read is the one published under its revision, and
revisions go up by one, at the publication store of the writer that holds the mutex.
When a thread dies, what is read later under the revisions until then is what was
published before it died. -/
theorem snapshots_atomic (actions : List Action) :
    let s := Library.run Store.step .initial actions
    s.published.length = s.publication + 1 ∧
    (∀ entry ∈ s.seen, s.published[entry.1]? = some entry.2) ∧
    (∀ a : Action, Published s (s.step a) a) ∧
    ∀ (t : Nat) (later : List Action),
      ∀ entry ∈ (Library.run Store.step (s.step (.die t)) later).seen,
        entry.1 ≤ s.publication → s.published[entry.1]? = some entry.2 := by
  have h := Consistent.initial.run actions
  refine ⟨h.count, h.seen, h.published, fun t later entry hentry hle => ?_⟩
  have hdie := h.step (.die t)
  have hseen := (hdie.run later).seen entry hentry
  obtain ⟨more, hmore⟩ := hdie.published_run later
  rw [← hmore, List.getElem?_append_left] at hseen
  · exact hseen
  · exact Nat.lt_of_le_of_lt hle (h.count ▸ Nat.lt_succ_self _)

end Kinakaze.Mount.Shared
