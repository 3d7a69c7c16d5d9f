import Kinakaze.Inotify.Order
import Kinakaze.Library.Run
import Mathlib.Data.List.Dedup

/-!
# The law of an inotify instance

* `reopened_queue`: a closed queue that is opened again breaks the order.
-/

namespace Kinakaze.Inotify

open Library Std

/-! ## Native queues -/

/-- The events of one watch: none of them ends it. -/
def Plain (wd : Int) (events : List Bytes) : Prop :=
  ∀ event ∈ events, (event.take 4 = wdBytes wd ∨ event = overflowEvent) ∧ isIgnored event = false

variable {wd : Int}

theorem Plain.append {events more : List Bytes} (h : Plain wd events)
    (hmore : Plain wd more) : Plain wd (events ++ more) := fun event hevent =>
  (List.mem_append.mp hevent).elim (h event) (hmore event)

theorem plain_single (wd : Int) {mask : BitVec 32} (hmask : has mask IN_IGNORED = false)
    (cookie : BitVec 32) (name : Bytes) : Plain wd [encodeEvent wd mask cookie name] := by
  intro event hevent
  rw [List.mem_singleton.mp hevent, isIgnored_encodeEvent]
  exact ⟨.inl (take_encodeEvent _ _ _ _), hmask⟩

theorem actionToMask_plain (action : Nat) (mask : BitVec 32) :
    has (actionToMask action mask) IN_IGNORED = false := by
  unfold actionToMask
  refine has_and ?_
  split <;> decide

variable {s : Scan}

theorem plain_note (h : Plain wd s.events) (watch : Watch) (action : Nat)
    (name : Bytes) : Plain wd (s.note wd watch action name).events := by
  unfold Scan.note
  dsimp only
  split
  · exact h.append (plain_single wd (actionToMask_plain action watch.mask) _ _)
  · exact h

theorem plain_scanPacket (watch : Watch) (packet : Bytes) (offset : Nat)
    (h : Plain wd s.events) : Plain wd (scanPacket wd watch packet offset s).1.events := by
  induction offset, s using scanPacket.induct wd watch packet with
  | case1 offset s hend =>
    rw [scanPacket, if_pos hend]
    exact h
  | case2 offset s hmore length hshort =>
    rw [scanPacket, if_neg hmore]
    dsimp only
    rw [if_pos hshort]
    exact h
  | case3 offset s hmore next action length hlong noted hdone =>
    rw [scanPacket, if_neg hmore]
    dsimp only
    rw [if_neg hlong, if_pos hdone]
    exact plain_note h watch _ _
  | case4 offset s hmore next action length hlong noted hgo hbad =>
    rw [scanPacket, if_neg hmore]
    dsimp only
    rw [if_neg hlong, if_neg hgo, if_pos hbad]
    exact plain_note h watch _ _
  | case5 offset s hmore next action length hlong noted hgo hgood ih =>
    rw [scanPacket, if_neg hmore]
    dsimp only
    rw [if_neg hlong, if_neg hgo, if_neg hgood]
    exact ih (plain_note h watch _ _)

theorem plain_scanPackets (watch : Watch) (packets : List Bytes)
    (h : Plain wd s.events) : Plain wd (scanPackets wd watch packets s).1.events := by
  induction packets generalizing s with
  | nil => exact h
  | cons packet packets ih =>
    have hpacket := plain_scanPacket watch packet 0 h
    unfold scanPackets
    split
    · next scanned e heq =>
      rw [heq] at hpacket
      exact hpacket
    · next scanned heq =>
      rw [heq] at hpacket
      split
      · exact hpacket
      · exact ih hpacket

/-! ## The rounds of a collect -/

/-- The events of the watches so far. -/
structure RoundOk (done : List (Int × Watch)) (round : Round) : Prop where
  wd : ∀ event ∈ round.events,
    event = overflowEvent ∨ ∃ entry ∈ done, event.take 4 = wdBytes entry.1
  order : round.events.Pairwise Follows
  ended : ∀ event ∈ round.events, isIgnored event = true →
    ∃ entry ∈ done, event.take 4 = wdBytes entry.1 ∧ entry.1 ∈ round.ignored ∧ entry.2.volume ≠ 0

theorem RoundOk.append {done : List (Int × Watch)} {round : Round} (h : RoundOk done round)
    {entry : Int × Watch} (hrange : ∀ other ∈ done ++ [entry], InI32 other.1 ∧ 1 ≤ other.1)
    (hnew : ∀ other ∈ done, other.1 ≠ entry.1) {events : List Bytes} (ignored : List Int)
    (hwd : ∀ event ∈ events, event.take 4 = wdBytes entry.1 ∨ event = overflowEvent)
    (horder : events.Pairwise Follows)
    (hended : ∀ event ∈ events, isIgnored event = true → entry.1 ∈ ignored ∧ entry.2.volume ≠ 0) :
    RoundOk (done ++ [entry]) ⟨round.events ++ events, round.ignored ++ ignored⟩ where
  wd event hevent := by
    rcases List.mem_append.mp hevent with hold | hmore
    · exact (h.wd event hold).imp_right fun ⟨other, hother, htake⟩ =>
        ⟨other, List.mem_append_left _ hother, htake⟩
    · rcases hwd event hmore with htake | hoverflow
      · exact .inr ⟨entry, by simp, htake⟩
      · exact .inl hoverflow
  order := by
    refine List.pairwise_append.mpr ⟨h.order, horder, fun a ha b hb hignored heq => ?_⟩
    obtain ⟨other, hother, htake, -⟩ := h.ended a ha hignored
    obtain ⟨hotherRange, hotherLow⟩ := hrange other (List.mem_append_left _ hother)
    rw [htake] at heq
    rcases hwd b hb with hb | rfl
    · rw [hb] at heq
      exact hnew other hother (wdBytes_injective (hrange entry (by simp)).1 hotherRange heq).symm
    · rw [overflowEvent, take_encodeEvent] at heq
      have hsame := wdBytes_injective (by constructor <;> decide) hotherRange heq
      omega
  ended event hevent hignored := by
    rcases List.mem_append.mp hevent with hold | hmore
    · obtain ⟨other, hother, htake, hmem, hvolume⟩ := h.ended event hold hignored
      exact ⟨other, List.mem_append_left _ hother, htake, List.mem_append_left _ hmem, hvolume⟩
    obtain ⟨hmem, hvolume⟩ := hended event hmore hignored
    refine ⟨entry, by simp, ?_, List.mem_append_right _ hmem, hvolume⟩
    rcases hwd event hmore with htake | rfl
    · exact htake
    · rw [isIgnored_overflowEvent] at hignored
      cases hignored

/-- During a collect the watches keep their filesystems. -/
structure Collecting (w₀ : Work) (done : List (Int × Watch)) (round : Round) (w : Work) : Prop where
  core : Core [] w
  next : w.inst.next = w₀.inst.next
  volume : column w.inst.watches Watch.volume = column w₀.inst.watches Watch.volume
  round : RoundOk done round

variable {w : Work} {q : Queue}

theorem Core.storeQueue {pending : List Int} (h : Core pending w) (hq : q.Tidy) (id : BitVec 64) :
    Core pending { w with memory := w.memory.insert id.toNat q } :=
  { h with memory := h.memory.insert hq }

theorem Core.modifyWatch {pending : List Int} (h : Core pending w) (wd : Int) {f : Watch → Watch}
    (hpath : ∀ watch, (f watch).path = watch.path) (hid : ∀ watch, (f watch).id = watch.id)
    (hvolume : ∀ watch, (f watch).volume = watch.volume) :
    Core pending { w with inst := { w.inst with watches := w.inst.watches.modify wd f } } :=
  { h with
    watch := h.watch.modify fun watch _ hwatch => by rwa [hpath, hid]
    watches := by
      show (w.inst.watches.modify wd f).size ≤ 16384
      rw [ExtTreeMap.size_modify]
      exact h.watches
    ended := fun event hevent hignored => by
      obtain ⟨other, hlow, hhigh, htake, hgone⟩ := h.ended event hevent hignored
      refine ⟨other, hlow, hhigh, htake, ?_⟩
      show (w.inst.watches.modify wd f)[other]? = none ∨ other ∈ pending ∧
        ∃ watch, (w.inst.watches.modify wd f)[other]? = some watch ∧ watch.volume ≠ 0
      rw [get_modify]
      rcases hgone with hnone | ⟨hmem, old, hold, hold'⟩
      · rw [hnone]
        exact .inl (by split <;> rfl)
      refine .inr ⟨hmem, ?_⟩
      rw [hold]
      split
      · exact ⟨f old, rfl, by rwa [hvolume]⟩
      · exact ⟨old, rfl, hold'⟩ }

variable {onError : Int → Work → Prop}

theorem wp_openQueue {pending : List Int} (h : Core pending w) (id : BitVec 64)
    {onOk : Queue → Work → Prop}
    (hok : ∀ q, w.memory[id.toNat]? = some q → q.Tidy → onOk q w) (herror : ∀ e, onError e w) :
    wp (openQueue id) onOk onError w := by
  simp only [openQueue, wp_bind, wp_get, wp_require]
  refine ⟨fun _ => herror _, fun q hq => ?_⟩
  have htidy := h.memory id.toNat q hq
  rw [htidy.read]
  exact hok q hq htidy

theorem wp_outside {α : Type} (result : Except Int α) {onOk : α → Work → Prop}
    (hok : ∀ a, result = .ok a → onOk a w)
    (herror : ∀ e, onError e w) : wp (outside result) onOk onError w := by
  cases result with
  | ok a => exact hok a rfl
  | error e => exact herror e

theorem pairwise_rename (h : q.Tidy) (wd : Int) : (q.events.map (rename wd)).Pairwise Follows := by
  refine List.pairwise_map.mpr (h.last.imp fun {a b} ha => ?_)
  exact follows_of_not_ignored (by rwa [isIgnored_rename]) _

theorem take_rename (h : q.Tidy) (wd : Int) :
    ∀ event ∈ q.events.map (rename wd), event.take 4 = wdBytes wd ∨ event = overflowEvent := by
  intro event hevent
  obtain ⟨old, hold, rfl⟩ := List.mem_map.mp hevent
  unfold rename
  split
  · exact .inl (List.take_left' (length_wdBytes wd))
  · next hsame =>
    rcases h.wd old hold with hzero | hoverflow
    · rw [ne_eq, not_not, hzero] at hsame
      have hwd := wdBytes_injective (by constructor <;> decide) (by constructor <;> decide) hsame
      omega
    · exact .inr hoverflow

section Rounds

variable {w₀ : Work} (h₀ : Core [] w₀) {done back : List (Int × Watch)} {entry : Int × Watch}
  (hsplit : w₀.inst.watches.toList = done ++ entry :: back)

include h₀ hsplit

theorem entries_range : ∀ other ∈ done ++ [entry], InI32 other.1 ∧ 1 ≤ other.1 := by
  intro other hother
  have hmem : other ∈ w₀.inst.watches.toList := by
    rw [hsplit]
    rcases List.mem_append.mp hother with hdone | hlast
    · exact List.mem_append_left _ hdone
    · rw [List.mem_singleton.mp hlast]
      simp
  obtain ⟨hlow, hhigh, -⟩ :=
    h₀.watch other.1 other.2 (ExtTreeMap.mem_toList_iff_getElem?_eq_some.mp hmem)
  exact ⟨h₀.inI32 hlow hhigh, hlow⟩

omit h₀ in
theorem entries_new : ∀ other ∈ done, other.1 ≠ entry.1 := by
  have hkeys := nodup_keys_toList w₀.inst.watches
  rw [hsplit, List.map_append, List.nodup_append] at hkeys
  intro other hother heq
  exact hkeys.2.2 other.1 (List.mem_map_of_mem hother) entry.1 (by simp) heq

variable {round : Round}

theorem wp_collectMemory (h : Collecting w₀ done round w) (hvolume : entry.2.volume ≠ 0)
    :
    wp (collectMemory entry.1 entry.2 round) (Collecting w₀ (done ++ [entry]))
      (fun _ => Core []) w := by
  unfold collectMemory
  rw [wp_bind]
  refine wp_openQueue h.core entry.2.id (fun q hq htidy => ?_) fun _ => h.core
  have hround := h.round.append (entries_range h₀ hsplit) (entries_new hsplit)
    (if (q.events.map (rename entry.1)).any isIgnored then [entry.1] else [])
    (take_rename htidy entry.1) (pairwise_rename htidy entry.1)
    fun event hevent hignored => by
      rw [if_pos (List.any_eq_true.mpr ⟨event, hevent, hignored⟩)]
      exact ⟨List.mem_singleton_self _, hvolume⟩
  rw [wp_ite]
  refine ⟨fun hnil => ?_, fun _ => ?_⟩
  · rw [hnil] at hround
    rw [wp_pure]
    refine { h with round := ?_ }
    simpa using hround
  · simp only [storeQueue, wp_bind, wp_modify, wp_pure]
    exact
      { core := h.core.storeQueue
          { htidy with
            count := Nat.zero_le _
            length := fun event hevent => by cases hevent
            wd := fun event hevent => by cases hevent
            last := List.Pairwise.nil
            closed := fun event hevent => by cases hevent } entry.2.id
        next := h.next
        volume := h.volume
        round := hround }

theorem wp_collectNative (native : Int → Except Int Drained) (h : Collecting w₀ done round w) :
    wp (collectNative native entry.1 entry.2 round) (Collecting w₀ (done ++ [entry]))
      (fun _ => Core []) w := by
  unfold collectNative
  rw [wp_bind]
  refine wp_outside _ (fun drained _ => ?_) fun _ => h.core
  have hlost : Plain entry.1 (if drained.overflow then [overflowEvent] else []) := by
    intro event hevent
    split at hevent
    · rw [List.mem_singleton.mp hevent]
      exact ⟨.inr rfl, isIgnored_overflowEvent⟩
    · cases hevent
  have hscanned : Plain entry.1 (scanPackets entry.1 entry.2 drained.packets
      ⟨entry.2.cookie, if drained.overflow then [overflowEvent] else [], false⟩).1.events :=
    plain_scanPackets entry.2 drained.packets hlost
  have hgone : Plain entry.1 (if drained.ended ∧ has entry.2.mask IN_DELETE_SELF then
      [encodeEvent entry.1 IN_DELETE_SELF 0 []] else []) := by
    split
    · exact plain_single entry.1 (by decide) 0 []
    · intro event hevent
      cases hevent
  have hall := hscanned.append hgone
  simp only [wp_bind, wp_modify]
  generalize scanPackets entry.1 entry.2 drained.packets
    ⟨entry.2.cookie, if drained.overflow then [overflowEvent] else [], false⟩ = scanned
    at hscanned hall ⊢
  have hcore := h.core.modifyWatch entry.1
    (f := fun v => { v with cookie := scanned.1.cookie }) (fun _ => rfl) (fun _ => rfl)
    fun _ => rfl
  split
  · exact hcore
  rw [wp_pure]
  exact
    { core := hcore
      next := h.next
      volume := (column_modify_eq w.inst.watches (f := Watch.volume)
        (g := fun v => { v with cookie := scanned.1.cookie }) entry.1
        fun _ => rfl).trans h.volume
      round := h.round.append (entries_range h₀ hsplit) (entries_new hsplit)
        (if scanned.1.fired ∨ drained.ended then [entry.1] else [])
        (fun event hevent => (hall event hevent).1)
        (List.pairwise_of_forall_mem_list (r := Follows) fun a ha b _ =>
          follows_of_not_ignored (hall a ha).2 b)
        fun event hevent hignored => by
          rw [(hall event hevent).2] at hignored
          cases hignored }

theorem wp_collectWatch (native : Int → Except Int Drained) (h : Collecting w₀ done round w) :
    wp (collectWatch native round entry) (Collecting w₀ (done ++ [entry]))
      (fun _ => Core []) w := by
  unfold collectWatch
  rw [wp_ite]
  exact ⟨wp_collectMemory h₀ hsplit h, fun _ => wp_collectNative h₀ hsplit native h⟩

end Rounds

/-! ## The calls -/

theorem Core.pending {pending : List Int} (h : Core [] w) : Core pending w :=
  { h with
    ended := fun event hevent hignored => by
      obtain ⟨wd, hlow, hhigh, htake, hnone | ⟨hmem, -⟩⟩ := h.ended event hevent hignored
      · exact ⟨wd, hlow, hhigh, htake, .inl hnone⟩
      · cases hmem }

theorem wp_collect (native : Int → Except Int Drained) (h : Core [] w) :
    wp (collect native) (fun _ => Core []) (fun _ => Core []) w := by
  simp only [collect, wp_bind, wp_get]
  have hloop : wp (w.inst.watches.toList.foldlM (collectWatch native) {})
      (Collecting w w.inst.watches.toList) (fun _ => Core []) w := by
    refine wp_foldlM w.inst.watches.toList (fun done entry back round w' hsplit hw' =>
      wp_collectWatch h hsplit native hw') ⟨h, rfl, rfl, ?_⟩
    exact ⟨fun event hevent => (by cases hevent), List.Pairwise.nil,
      fun event hevent => by cases hevent⟩
  refine wp_mono hloop (fun round w' hw' => ?_) fun _ _ he => he
  -- Every descriptor of the round still has its watch.
  have hwatch : ∀ entry ∈ w.inst.watches.toList, ∃ watch,
      w'.inst.watches[entry.1]? = some watch ∧ watch.volume = entry.2.volume := by
    intro entry hentry
    have hold := column_of_get Watch.volume (ExtTreeMap.mem_toList_iff_getElem?_eq_some.mp hentry)
    rw [← hw'.volume] at hold
    exact column_eq_some.mp hold
  have hmem : ∀ wd, wd ∈ (round.ignored.mergeSort (· ≤ ·)).dedup ↔ wd ∈ round.ignored := by
    intro wd
    rw [List.mem_dedup, List.mem_mergeSort]
  refine Core.dropWatches (Core.pushAll hw'.core.pending hw'.round.order ?_ ?_)
  · intro a ha event hevent
    rcases hw'.round.wd event hevent with rfl | ⟨entry, hentry, htake⟩
    · exact hw'.core.follows_overflow a ha
    · obtain ⟨watch, hget, -⟩ := hwatch entry hentry
      exact hw'.core.follows_of_watch hget (.inr (by simp)) htake a ha
  · intro event hevent hignored
    obtain ⟨entry, hentry, htake, hpending, hvolume⟩ := hw'.round.ended event hevent hignored
    obtain ⟨watch, hget, hsame⟩ := hwatch entry hentry
    obtain ⟨hlow, hhigh, -⟩ := hw'.core.watch entry.1 watch hget
    exact ⟨entry.1, hlow, hhigh, htake,
      .inr ⟨(hmem entry.1).mpr hpending, watch, hget, by rwa [hsame]⟩⟩

theorem wp_changeMask (h : Core [] w) (wd : Int) (watch : Watch) (mask : BitVec 32)
    (hopen : watch.volume ≠ 0 → ∀ q, w.memory[watch.id.toNat]? = some q → q.mask ≠ 0) :
    wp (changeMask wd watch mask) (fun _ => Core []) (fun _ => Core []) w := by
  have hmodify : ∀ w' : Work, Core [] w' → Core []
      { w' with
        inst :=
          { w'.inst with
            watches := w'.inst.watches.modify wd fun v =>
              { v with mask := if has mask IN_MASK_ADD then v.mask ||| mask else mask } } } :=
    fun w' hw' => hw'.modifyWatch wd (fun _ => rfl) (fun _ => rfl) fun _ => rfl
  simp only [changeMask, wp_bind, wp_failIf]
  refine ⟨fun _ => h, fun _ => ?_⟩
  rw [wp_ite]
  refine ⟨fun hvolume => ?_, fun _ => ?_⟩
  · rw [wp_bind]
    refine wp_openQueue h watch.id (fun q hq htidy => ?_) fun _ => h
    simp only [storeQueue, wp_modify]
    exact hmodify _ (h.storeQueue (tidy_setMask htidy (hopen hvolume q hq) mask) watch.id)
  · simp only [wp_pure, wp_modify]
    exact hmodify w h

theorem wp_insertWatch (h : Core [] w) {watch : Watch} (hnext : w.inst.next ≠ I32_MAX)
    (hsize : w.inst.watches.size < 16384) (hpath : watch.path.Unicode) :
    wp (insertWatch watch) (fun _ => Core []) (fun _ => Core []) w := by
  simp only [insertWatch, wp_bind, wp_get, wp_set, wp_pure]
  obtain ⟨hlow, hhigh⟩ := h.next
  rw [I32_MAX] at hnext
  exact
    { h with
      next := ⟨by dsimp only; omega, by dsimp only; omega⟩
      watch := ForAll.insert
        (h.watch.mono fun wd old hold => ⟨hold.1, by dsimp only; omega, hold.2.2.1,
          List.mem_append_left _ hold.2.2.2⟩)
        ⟨hlow, by dsimp only; omega, hpath, by simp⟩
      watches := by
        have hle := ExtTreeMap.size_insert_le (t := w.inst.watches) (k := w.inst.next) (v := watch)
        show (w.inst.watches.insert w.inst.next watch).size ≤ 16384
        omega
      assigned := by
        refine ⟨?_, fun entry hentry => ?_⟩
        · show ((w.history.assigned ++ [(w.inst.next, watch.id)]).map Prod.fst).Nodup
          rw [List.map_append, List.nodup_append]
          refine ⟨h.assigned.1, List.nodup_singleton _, fun a ha b hb heq => ?_⟩
          obtain ⟨entry, hentry, rfl⟩ := List.mem_map.mp ha
          rw [List.map_singleton, List.mem_singleton] at hb
          have hless := (h.assigned.2 entry hentry).2
          omega
        · rcases List.mem_append.mp hentry with hold | hnew
          · obtain ⟨hentryLow, hentryHigh⟩ := h.assigned.2 entry hold
            exact ⟨hentryLow, by dsimp only; omega⟩
          · rw [List.mem_singleton.mp hnew]
            exact ⟨hlow, by dsimp only; omega⟩
      ended := fun event hevent hignored => by
        obtain ⟨wd, hwdLow, hwdHigh, htake, hnone | ⟨hmem, -⟩⟩ := h.ended event hevent hignored
        · refine ⟨wd, hwdLow, by dsimp only; omega, htake, .inl ?_⟩
          show (w.inst.watches.insert w.inst.next watch)[wd]? = none
          rw [get_insert, if_neg (by omega), hnone]
        · cases hmem }

/-- What an addition finds on a node of an in-memory filesystem. -/
def memoryWatch (w : Work) (volume node : BitVec 64) : Option (Int × Watch) :=
  w.inst.watches.toList.find? fun entry =>
    entry.2.volume == volume && entry.2.node == node

theorem wp_addMemoryWatch (h : Core [] w) (volume node : BitVec 64) (mask : BitVec 32)
    (created : Except Int (BitVec 64))
    (hfound : ∀ wd watch, memoryWatch w volume node = some (wd, watch) →
      ∀ q, w.memory[watch.id.toNat]? = some q → q.mask ≠ 0)
    (hroom : memoryWatch w volume node = none → w.inst.watches.size < 16384) :
    wp (addMemoryWatch volume node mask created) (fun _ => Core []) (fun _ => Core []) w := by
  simp only [addMemoryWatch, wp_bind, wp_get]
  split
  · next wd watch hfind =>
    rw [wp_bind]
    exact wp_mono (wp_changeMask h wd watch mask fun _ => hfound wd watch hfind)
      (fun _ _ hw' => hw') fun _ _ he => he
  · next hnone =>
    simp only [wp_bind, wp_failIf]
    refine ⟨fun _ => h, fun hnext => ?_⟩
    refine wp_outside created (fun id _ => ?_) fun _ => h
    simp only [storeQueue, wp_modify]
    exact wp_insertWatch (h.storeQueue (tidy_empty mask) id) hnext (hroom hnone)
      fun unit hunit => by cases hunit

theorem wp_addWatch (h : Core [] w) {path : Path} (hpath : path.Unicode) (mask : BitVec 32)
    (target : Except Int Target) (created : Except Int (BitVec 64)) :
    wp (addWatch path mask target created) (fun _ => Core []) (fun _ => Core []) w := by
  simp only [addWatch, wp_bind, wp_get]
  split
  · next wd watch hfind =>
    have hnative := List.find?_some hfind
    rw [Bool.and_eq_true, beq_iff_eq] at hnative
    rw [wp_bind]
    exact wp_mono (wp_changeMask h wd watch mask fun hvolume => absurd hnative.1 hvolume)
      (fun _ _ hw' => hw') fun _ _ he => he
  simp only [wp_bind, wp_failIf]
  refine ⟨fun _ => h, fun hsize => ⟨fun _ => h, fun hnext => ?_⟩⟩
  refine wp_outside target (fun found _ => ?_) fun _ => h
  have hinsert : ∀ filter : Bytes, wp (do
      let id ← outside created
      insertWatch { id, volume := 0, node := 0, path, filter, mask, cookie := 0 })
      (fun _ => Core []) (fun _ => Core []) w := by
    intro filter
    rw [wp_bind]
    exact wp_outside created (fun id _ => wp_insertWatch h hnext (by omega) hpath) fun _ => h
  simp only [wp_bind, wp_failIf, wp_ite]
  refine ⟨fun _ => h, fun _ => ⟨fun _ => ?_, fun _ => ?_⟩⟩
  · exact wp_bind _ _ |>.mp (hinsert [])
  · rw [wp_require]
    exact ⟨fun _ => h, fun filter _ => hinsert filter⟩

theorem wp_rmWatch (native : Int → Except Int Drained) (wd : Int) (h : Core [] w) :
    wp (rmWatch native wd) (fun _ => Core []) (fun _ => Core []) w := by
  rw [rmWatch, wp_bind]
  refine wp_mono (wp_collect native h) (fun _ w' hw' => ?_) fun _ _ he => he
  simp only [wp_bind, wp_get, wp_require, wp_set, wp_modify]
  refine ⟨fun _ => hw', fun watch hwatch => ?_⟩
  exact hw'.pending.endWatch hwatch
    (hw'.follows_of_watch hwatch (.inr (by simp)) (take_encodeEvent wd _ _ _))

theorem fill_suffix (capacity written : Nat) (queue : List Bytes) :
    (fill capacity written queue).2 <:+ queue := by
  induction queue generalizing written with
  | nil => exact List.suffix_rfl
  | cons event rest ih =>
    unfold fill
    split
    · exact List.suffix_rfl
    · exact (ih _).trans (List.suffix_cons event rest)

theorem wp_readEvents (native : Int → Except Int Drained) (capacity : Nat) (h : Core [] w) :
    wp (readEvents native capacity) (fun _ => Core []) (fun _ => Core []) w := by
  rw [readEvents, wp_bind]
  refine wp_mono (wp_collect native h) (fun _ w' hw' => ?_) fun _ _ he => he
  simp only [wp_bind, wp_get, wp_ite, wp_pure, wp_set]
  refine ⟨fun _ => hw', fun _ => ?_⟩
  have hsuffix := fill_suffix capacity 0 w'.inst.queue
  obtain ⟨front, hfront⟩ := hsuffix
  have hlength := congrArg List.length hfront
  rw [List.length_append] at hlength
  have hqueue := hw'.queue
  exact
    { hw' with
      queue := by dsimp only; omega
      full := fun hfull => by
        have hnil : front = [] := List.length_eq_zero_iff.mp (by dsimp only at hfull; omega)
        rw [hnil, List.nil_append] at hfront
        show (fill capacity 0 w'.inst.queue).2.getLast? = _
        rw [hfront]
        exact hw'.full (hfront ▸ hfull)
      order := by
        show w'.history.queued = w'.history.taken ++
          w'.inst.queue.take (w'.inst.queue.length - (fill capacity 0 w'.inst.queue).2.length) ++
            (fill capacity 0 w'.inst.queue).2
        have htake : w'.inst.queue.take
            (w'.inst.queue.length - (fill capacity 0 w'.inst.queue).2.length) = front := by
          have hcount : w'.inst.queue.length - (fill capacity 0 w'.inst.queue).2.length =
              front.length := by omega
          rw [hcount]
          conv_lhs => rw [← hfront]
          exact List.take_left
        rw [htake, List.append_assoc, hfront, hw'.order] }

/-! ## Runs -/

/-- What holds after every call. -/
structure Work.Law (w : Work) : Prop where
  core : Core [] w
  size : w.inst.encode.length ≤ PUBLICATION_LIMIT

theorem Core.fits (h : Core [] w) (hsize : w.inst.encode.length ≤ PUBLICATION_LIMIT) :
    w.inst.Fits where
  next := ⟨by have := h.next.1; omega, h.next.2⟩
  watch := h.watch.mono fun _ _ hwatch => ⟨h.inI32 hwatch.1 hwatch.2.1, hwatch.2.2.1⟩
  watches := h.watches
  queue := h.queue
  size := hsize

theorem release_memory (h : ForAll w.memory fun _ q => q.Tidy) :
    ForAll w.release.memory fun _ q => q.Tidy := by
  unfold Work.release
  show ForAll (w.retired.foldl _ w.memory) _
  generalize w.memory = memory at h ⊢
  induction w.retired generalizing memory with
  | nil => exact h
  | cons watch retired ih =>
    rw [List.foldl_cons]
    refine ih _ ?_
    split
    · exact h
    · exact h.erase _

theorem law_update {α : Type} {op : Call Int Work α} (h : w.Law)
    (hop : Core [] { w with retired := [] } →
      wp op (fun _ => Core []) (fun _ => Core []) { w with retired := [] }) :
    (update op w).Law := by
  have hafter : Core [] (exec op { w with retired := [] }).2 := by
    obtain ⟨hok, herror⟩ := (wp_iff_exec op).mp (hop { h.core with })
    cases hresult : (exec op { w with retired := [] }).1 with
    | ok a => exact hok a hresult
    | error e => exact herror e hresult
  unfold update
  rw [State.read_eq (h.core.fits h.size)]
  show Work.Law (if (exec op { w with retired := [] }).2.inst.encode.length > PUBLICATION_LIMIT then
    { w with memory := (exec op { w with retired := [] }).2.memory }
    else (exec op { w with retired := [] }).2.release)
  split
  · exact ⟨{ h.core with memory := hafter.memory }, h.size⟩
  · next hsize =>
    exact ⟨{ hafter with memory := release_memory hafter.memory }, Nat.not_lt.mp hsize⟩

theorem law_transact (h : w.Law) (id : BitVec 64) {f : Queue → Queue}
    (hf : ∀ q, w.memory[id.toNat]? = some q → q.Tidy → (f q).Tidy) : (w.transact id f).Law := by
  unfold Work.transact
  split
  · exact h
  · next q hq =>
    have htidy := h.core.memory id.toNat q hq
    rw [htidy.read]
    dsimp only
    split
    · exact h
    · exact ⟨h.core.storeQueue (hf q hq htidy) id, h.size⟩

/-- Calls that keep to the limits of the readers, and leave a closed queue closed. -/
def Room (w : Work) : Event → Prop
  -- A new memory watch is not one too many, and no queue is opened again that has ended.
  | .addMemoryWatch volume node _ _ _ _ =>
    (memoryWatch w volume node = none → w.inst.watches.size < 16384) ∧
      ∀ wd watch, memoryWatch w volume node = some (wd, watch) →
        ∀ q, w.memory[watch.id.toNat]? = some q → q.mask ≠ 0
  | .addWatch path _ _ _ => path.Unicode
  -- A node goes while its queue has room for saying so.
  | .delete id => ∀ q, w.memory[id.toNat]? = some q → q.Ends
  | _ => True

theorem law_step (h : w.Law) {event : Event} (hroom : Room w event) : (step w event).Law := by
  cases event with
  | addMemoryWatch volume node hvolume isDir mask created =>
    rw [step]
    split
    · exact law_update h fun hcore =>
        wp_addMemoryWatch hcore volume node mask created hroom.2 hroom.1
    · exact h
  | addWatch path mask target created =>
    rw [step]
    split
    · exact law_update h fun hcore => wp_addWatch hcore hroom mask target created
    · exact h
  | rmWatch native wd =>
    rw [step]
    exact law_update h fun hcore => wp_rmWatch native wd hcore
  | read native capacity =>
    rw [step]
    exact law_update h fun hcore => wp_readEvents native capacity hcore
  | poll native =>
    rw [step]
    exact law_update h fun hcore => wp_collect native hcore
  | observe id changes =>
    rw [step]
    exact law_transact h id fun q _ hq => hq.observe changes
  | delete id =>
    rw [step]
    exact law_transact h id fun q hget hq => hq.delete (hroom q hget)

theorem law_start : start.Law where
  core :=
    { next := ⟨by decide, by decide⟩
      watch := ForAll.empty
      watches := Nat.zero_le _
      queue := Nat.zero_le _
      full := nofun
      memory := ForAll.empty
      order := rfl
      assigned := ⟨List.Pairwise.nil, nofun⟩
      follows := List.Pairwise.nil
      ended := nofun }
  size := by
    rw [State.length_encode]
    decide

/-- An instance that can be used: what it publishes reads back, its queue is bounded with
one mark of an overflow, no descriptor is given out twice, events are read in the order
in which they were queued, and behind the end of a watch nothing has its descriptor. -/
structure Usable (w : Work) : Prop where
  reads : w.inst.read = .ok w.inst
  memory : ForAll w.memory fun _ q => q.read = .ok q
  bounded : w.inst.queue.length ≤ QUEUE_LIMIT + 1
  overflow : w.inst.queue.length = QUEUE_LIMIT + 1 → w.inst.queue.getLast? = some overflowEvent
  assigned : (w.history.assigned.map Prod.fst).Nodup ∧
    ForAll w.inst.watches fun wd watch => (wd, watch.id) ∈ w.history.assigned
  order : w.history.queued = w.history.taken ++ w.inst.queue
  last : w.history.queued.Pairwise Follows

theorem Work.Law.usable (h : w.Law) : Usable w where
  reads := State.read_eq (h.core.fits h.size)
  memory := h.core.memory.mono fun _ _ hq => hq.read
  bounded := h.core.queue
  overflow := h.core.full
  assigned := ⟨h.core.assigned.1, h.core.watch.mono fun _ _ hwatch => hwatch.2.2.2⟩
  order := h.core.order
  last := h.core.follows

/-- An event that a memory queue is open for is queued, or repeats the last one, or finds
the queue full. -/
theorem queue_push_cases {kind : BitVec 32} (hopen : q.mask ≠ 0)
    (hsubscribed : has (kind &&& q.mask) IN_ALL_EVENTS = true) (cookie : BitVec 32) (name : Bytes) :
    (q.events.length < 4096 ∧
      ((q.events.getLast? = some (encodeEvent 0 (kind &&& (q.mask ||| IN_ISDIR)) cookie name) ∧
          q.push kind cookie name = q.fired) ∨
        q.push kind cookie name = Queue.fired { q with
          events := q.events ++ [encodeEvent 0 (kind &&& (q.mask ||| IN_ISDIR)) cookie name] })) ∨
    (q.events.length = 4096 ∧
      q.push kind cookie name = { q with events := q.events ++ [overflowEvent] }) ∨
    (4096 < q.events.length ∧ q.push kind cookie name = q) := by
  have hnot : ¬ (q.mask = 0 ∨ has (kind &&& q.mask) IN_ALL_EVENTS = false) := by
    rintro (hzero | hfalse)
    · exact hopen hzero
    · rw [hsubscribed] at hfalse
      cases hfalse
  unfold Queue.push
  rw [if_neg hnot]
  split
  · split
    · next hfull => exact .inr (.inl ⟨hfull, rfl⟩)
    · exact .inr (.inr ⟨by omega, rfl⟩)
  refine .inl ⟨by omega, ?_⟩
  dsimp only
  split
  · next hlast => exact .inl ⟨hlast, rfl⟩
  · exact .inr rfl

/-- In a run of calls that find room the instance stays usable, and an event is left out
only when it repeats the last one or finds the queue full. -/
theorem usable_of_room (events : List Event) (h : EveryStep step Room start events) :
    EveryState step Usable start events ∧
    (∀ (w : Work) (event : Bytes), (w.inst.queue.getLast? = some event ∧ w.push event = w) ∨
        (w.inst.queue.length < QUEUE_LIMIT ∧ w.push event = w.append event) ∨
        (w.inst.queue.length = QUEUE_LIMIT ∧ w.push event = w.append overflowEvent) ∨
        (QUEUE_LIMIT < w.inst.queue.length ∧ w.push event = w)) ∧
    ∀ (q : Queue) (kind cookie : BitVec 32) (name : Bytes), q.mask ≠ 0 →
      has (kind &&& q.mask) IN_ALL_EVENTS = true →
      (q.events.length < 4096 ∧
        ((q.events.getLast? = some (encodeEvent 0 (kind &&& (q.mask ||| IN_ISDIR)) cookie name) ∧
            q.push kind cookie name = q.fired) ∨
          q.push kind cookie name = Queue.fired { q with
            events := q.events ++ [encodeEvent 0 (kind &&& (q.mask ||| IN_ISDIR)) cookie name] })) ∨
      (q.events.length = 4096 ∧
        q.push kind cookie name = { q with events := q.events ++ [overflowEvent] }) ∨
      (4096 < q.events.length ∧ q.push kind cookie name = q) := by
  have hlaw : EveryState step Work.Law start events :=
    EveryState.of_preserved (fun _ _ hw hroom => law_step hw hroom) law_start h
  exact ⟨hlaw.mono fun _ hw => hw.usable, push_cases,
    fun _ _ cookie name hopen hsubscribed => queue_push_cases hopen hsubscribed cookie name⟩

/-- A watch on a directory, and a read. -/
theorem usable_of_room_two : EveryState step Usable start
      [.addWatch [.char 'd'] IN_CREATE (.ok ⟨true, none⟩) (.ok 3),
        .read (fun _ => .ok ⟨[], false, true⟩) 64] :=
  (usable_of_room [.addWatch [.char 'd'] IN_CREATE (.ok ⟨true, none⟩) (.ok 3),
      .read (fun _ => .ok ⟨[], false, true⟩) 64]
    ⟨fun unit hunit => ⟨'d', List.mem_singleton.mp hunit⟩, trivial, trivial⟩).1

/-- A watch for one event fires, and its mask is set again before a collect. -/
def reopening : List Event :=
  [.addMemoryWatch 1 1 (by decide) false (IN_MODIFY ||| IN_ONESHOT) (.ok 7),
    .observe 7 [⟨IN_MODIFY, 0, [], by decide⟩],
    .addMemoryWatch 1 1 (by decide) false IN_MODIFY (.ok 8),
    .observe 7 [⟨IN_MODIFY, 0, [], by decide⟩],
    .poll fun _ => .error EIO]

/-- The next event then stands behind the event that ended the watch. -/
theorem reopened_queue : ¬ ∀ events : List Event, EveryState step Usable start events := by
  intro hall
  have hqueued : (run step start reopening).history.queued =
      [encodeEvent 1 IN_MODIFY 0 [], ignoredEvent 1, encodeEvent 1 IN_MODIFY 0 []] := by
    decide +kernel
  have hlast := (hall reopening).last.last
  rw [hqueued] at hlast
  have hfollows := (List.pairwise_cons.mp (List.pairwise_cons.mp hlast).2).1
    (encodeEvent 1 IN_MODIFY 0 []) (by simp)
  exact hfollows (isIgnored_ignoredEvent 1) (by decide)

end Kinakaze.Inotify
