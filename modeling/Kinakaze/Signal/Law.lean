import Kinakaze.Signal.Entries

/-!
# What the pending signals keep

* `Lawful`: the bits, the queue and what has happened agree.
* `Allowed`: a step that keeps them so.
* `Inv.step`: one step, by one lemma for each thing that a step can do.
-/

namespace Kinakaze.Signal

open Library

structure Lawful (s : State) : Prop where
  /-- A bit is set exactly when the signal was raised for the target, or an entry of the queue is
  for it. -/
  bits : ∀ target signal,
    s.bit target signal = (s.raised target signal || s.queue.any (·.isFor target signal))
  /-- The values of a signal leave the queue in the order in which they came. -/
  fifo : ∀ signal, s.accepted signal = s.gone signal ++ s.queue.filterMap (·.recordOf signal)
  /-- A value that has left is on the way to a thread, was delivered or was discarded. -/
  once : ∀ signal, (s.gone signal).Perm
    (s.flights.filterMap (·.recordOf signal) ++ (s.delivered signal ++ s.discarded signal))
  /-- A timer has at most one entry. -/
  single : ∀ id, s.queue.countP (·.isTimer id) ≤ 1
  /-- No expiration is lost or counted twice. -/
  expirations : ∀ id, s.expired id = s.deliveries id + s.overruns id + s.dropped id +
    (s.queue.map (·.expirations id)).sum + (s.flights.map (·.expirations id)).sum

structure Inv (s : State) : Prop extends Lawful s where
  queueOk : ∀ t ∈ s.queue, t.Ok
  flightsOk : ∀ f ∈ s.flights, f.Ok

/-! ## The steps that are allowed -/

/-- A signal may be put back: its timer has no entry that does not fit, and no value of the signal
was taken after its own. -/
def Returnable (s : State) (f : Flight) : Prop :=
  ∀ t, f.timer = some t → match t.queued with
    | some record => (s.gone record.signal).getLast? = some record
    | none => Mergeable s t.target t.signal t.id t.overrun

def Allowed (s : State) : Call → Prop
  | .queueTimer target signal id _ overrun alive =>
    valid signal → (target.isSome → alive) → (s.actions signal).disposition ≠ .ignore →
      Mergeable s target signal id overrun
  | .finish thread => ∀ f, s.flightOf thread = some f → f.decision = some .putBack → Returnable s f
  | _ => True

/-! ## Entries that come -/

namespace Inv

variable {s : State}

theorem raiseSet (inv : Inv s) (signal : Nat) : Inv (s.raiseSet signal) := by
  unfold State.raiseSet
  split
  · exact { inv with bits := bits_raise inv.bits none signal }
  · exact inv

theorem raiseThread (inv : Inv s) (thread signal : Nat) (alive : Bool) :
    Inv (s.raiseThread thread signal alive) := by
  unfold State.raiseThread
  split
  · exact inv
  dsimp only
  split
  · exact inv
  · exact { inv with bits := bits_raise inv.bits (some thread) signal }

theorem raiseCheck (inv : Inv s) (signal : Nat) : Inv (s.raiseCheck signal) := by
  unfold State.raiseCheck
  split
  · exact inv
  · exact { inv with }

theorem queueValue (inv : Inv s) (record : Record) : Inv (s.queueValue record) := by
  unfold State.queueValue
  split
  · exact inv
  dsimp only
  split
  · exact inv
  refine { inv with bits := ?_, fifo := ?_, single := ?_, expirations := ?_, queueOk := ?_ }
  · refine bits_push inv.bits ?_ fun t n hother => ?_
    · rw [List.any_append]
      simp [TimerSignal.isFor]
    · have hnew : TimerSignal.isFor t n ⟨none, record.signal, 0, record.value, 0, some record⟩ =
          false := by
        rw [← Bool.not_eq_true, isFor_iff]
        rintro ⟨rfl, rfl⟩
        exact hother ⟨rfl, rfl⟩
      rw [List.any_append, List.any_cons, List.any_nil, hnew]
      simp
  · intro signal
    show change s.accepted record.signal (· ++ [record]) signal = _
    rw [List.filterMap_append, ← List.append_assoc, ← inv.fifo signal, change_apply]
    by_cases hsame : signal = record.signal
    · subst hsame
      simp [TimerSignal.recordOf, Option.filter]
    · have hne : ¬ record.signal = signal := fun h => hsame h.symm
      simp [TimerSignal.recordOf, Option.filter, hsame, hne]
  · intro id
    have hold := inv.single id
    rw [List.countP_append]
    simpa [TimerSignal.isTimer] using hold
  · intro id
    have hold := inv.expirations id
    simpa [TimerSignal.expirations, TimerSignal.isTimer] using hold
  · intro t ht
    rcases List.mem_append.mp ht with hold | hnew
    · exact inv.queueOk t hold
    rw [List.mem_singleton] at hnew
    subst hnew
    intro r hr
    cases hr
    exact ⟨rfl, rfl⟩

theorem queueTimer (inv : Inv s) {target : Option Nat} {signal : Nat} {id : Int} (value : Nat)
    {overrun : Int} (alive : Bool)
    (hallowed : Allowed s (.queueTimer target signal id value overrun alive)) :
    Inv (s.queueTimer target signal id value overrun alive) := by
  unfold State.queueTimer
  split
  · exact inv
  · next hargs =>
    split
    · exact inv
    · next haction =>
      have h : Mergeable s target signal id overrun := by
        rw [Bool.or_eq_true, not_or] at hargs
        refine hallowed (by simpa using hargs.1) (fun hsome => ?_) haction
        have halive := hargs.2
        rw [hsome, Bool.true_and] at halive
        simpa using halive
      have hadded : Added ⟨target, signal, id, value, overrun, none⟩ s.queue
          (if s.queue.any (·.isTimer id) then merge id overrun s.queue
            else s.queue ++ [⟨target, signal, id, value, overrun, none⟩]) := by
        split
        · next hsome => exact added_merge rfl hsome h
        · next hnone => exact added_new rfl hnone (.inl rfl)
      refine { inv with
        bits := ?_
        fifo := fun n => by
          rw [hadded.records]
          exact inv.fifo n
        single := hadded.single inv.single
        expirations := ?_
        queueOk := hadded.ok inv.queueOk }
      · refine bits_push inv.bits ?_ fun t n hother => ?_
        · have hnew : TimerSignal.isFor target signal ⟨target, signal, id, value, overrun, none⟩ :=
            isFor_iff.mpr ⟨rfl, rfl⟩
          rw [hadded.any_eq, hnew, Bool.or_true]
        · have hnew : TimerSignal.isFor t n ⟨target, signal, id, value, overrun, none⟩ = false := by
            rw [← Bool.not_eq_true, isFor_iff]
            rintro ⟨rfl, rfl⟩
            exact hother ⟨rfl, rfl⟩
          rw [hadded.any_eq, hnew, Bool.or_false]
      · intro other
        have hold := inv.expirations other
        show change s.expired id (· + (overrun + 1)) other = _
        rw [hadded.sum_eq, change_apply, expirations_timer rfl]
        dsimp only
        by_cases hid : other = id
        · subst hid
          rw [if_pos rfl, if_pos rfl]
          omega
        · rw [if_neg hid, if_neg hid]
          omega

/-! ## Dispositions -/

theorem sigaction (inv : Inv s) (signal : Nat) (action : Action) :
    Inv (s.sigaction signal action) := by
  unfold State.sigaction
  split
  · exact inv
  dsimp only
  split
  · refine { inv with
      bits := fun target n => ?_
      fifo := fun n => ?_
      once := fun n => ?_
      single := fun id => ?_
      expirations := fun id => ?_
      queueOk := fun t ht => inv.queueOk t (List.mem_of_mem_filter ht) }
    · show clearSignal s.bit signal target n = (clearSignal s.raised signal target n || _)
      unfold clearSignal
      by_cases hn : n = signal
      · have hnone : (s.queue.filter (·.signal != signal)).any (·.isFor target n) = false := by
          rw [List.any_eq_false]
          intro t ht hfor
          have hsignal := (isFor_iff.mp hfor).2
          have hother := (List.mem_filter.mp ht).2
          rw [hsignal, hn] at hother
          simp at hother
        rw [if_pos hn, if_pos hn, hnone, Bool.or_self]
      have hsame : (s.queue.filter (·.signal != signal)).any (·.isFor target n) =
          s.queue.any (·.isFor target n) := by
        rw [List.any_filter]
        refine List.any_congr rfl fun t => ?_
        by_cases hfor : t.isFor target n
        · have hother : (t.signal != signal) = true := by
            rw [(isFor_iff.mp hfor).2]
            exact bne_iff_ne.mpr hn
          rw [hother, Bool.true_and]
        · rw [Bool.not_eq_true] at hfor
          rw [hfor, Bool.and_false]
      rw [if_neg hn, if_neg hn, hsame]
      exact inv.bits target n
    · dsimp only
      rw [change_apply, inv.fifo n]
      by_cases hn : n = signal
      · subst hn
        have hkept : (s.queue.filter (·.signal != n)).filterMap (·.recordOf n) = [] := by
          rw [List.filterMap_eq_nil_iff]
          intro t ht
          obtain ⟨hmem, hother⟩ := List.mem_filter.mp ht
          exact recordOf_eq_none (inv.queueOk t hmem) (bne_iff_ne.mp hother)
        have hremoved : (s.queue.filter (·.signal == n)).filterMap (·.recordOf n) =
            s.queue.filterMap (·.recordOf n) :=
          filterMap_filter fun t ht hother =>
            recordOf_eq_none (inv.queueOk t ht) (beq_eq_false_iff_ne.mp hother)
        rw [if_pos rfl, hkept, hremoved, List.append_nil]
      · have hkept : (s.queue.filter (·.signal != signal)).filterMap (·.recordOf n) =
            s.queue.filterMap (·.recordOf n) := by
          refine filterMap_filter fun t ht hsame => recordOf_eq_none (inv.queueOk t ht) ?_
          rw [bne_eq_false_iff_eq] at hsame
          rw [hsame]
          exact fun h => hn h.symm
        rw [if_neg hn, hkept]
    · dsimp only
      rw [change_apply, change_apply]
      by_cases hn : n = signal
      · subst hn
        rw [if_pos rfl, if_pos rfl, ← List.append_assoc (s.delivered n), ← List.append_assoc]
        exact (inv.once n).append_right _
      · rw [if_neg hn, if_neg hn]
        exact inv.once n
    · exact Nat.le_trans (List.Sublist.countP_le List.filter_sublist) (inv.single id)
    · have hold := inv.expirations id
      have hsplit := sum_filter (·.signal == signal) (·.expirations id) s.queue
      show s.expired id = s.deliveries id + s.overruns id + (s.dropped id + _) + _ + _
      simp only [bne]
      omega
  · exact { inv with }

/-! ## Signals that are taken -/

variable {record : Record} {all flights delivered discarded : List Record}

theorem perm_delivered (h : all.Perm ([record] ++ (flights ++ (delivered ++ discarded)))) :
    all.Perm (flights ++ ((delivered ++ [record]) ++ discarded)) := by
  rw [List.perm_iff_count] at h ⊢
  intro r
  have hr := h r
  simp only [List.count_append] at hr ⊢
  omega

theorem perm_discarded (h : all.Perm ([record] ++ (flights ++ (delivered ++ discarded)))) :
    all.Perm (flights ++ (delivered ++ (discarded ++ [record]))) := by
  rw [List.perm_iff_count] at h ⊢
  intro r
  have hr := h r
  simp only [List.count_append] at hr ⊢
  omega

theorem accept (inv : Inv s) (thread signal : Nat) : Inv (s.accept thread signal) := by
  unfold State.accept
  dsimp only
  generalize (if s.bit (some thread) signal then some thread else none : Option Nat) = target
  split
  · exact inv
  have hpopped := popped inv.queueOk target signal
  generalize s.queue.find? (·.isFor target signal) = timer at hpopped ⊢
  generalize s.queue.eraseP (·.isFor target signal) = queue at hpopped ⊢
  refine {
    bits := fun t n => ?_
    fifo := fun n => ?_
    once := fun n => ?_
    single := fun id => Nat.le_trans (List.Sublist.countP_le hpopped.sub) (inv.single id)
    expirations := fun id => ?_
    queueOk := fun t ht => inv.queueOk t (hpopped.sub.mem ht)
    flightsOk := fun f hf => ?_ }
  · show setBit s.bit target signal _ t n = (setBit s.raised target signal false t n || _)
    rw [setBit_apply, setBit_apply]
    by_cases hsame : t = target ∧ n = signal
    · rw [if_pos hsame, if_pos hsame, hsame.1, hsame.2, Bool.false_or]
    · rw [if_neg hsame, if_neg hsame, hpopped.any_eq t n hsame]
      exact inv.bits t n
  · dsimp only
    rw [change_apply, inv.fifo n, hpopped.records n]
    by_cases hn : n = signal
    · subst hn
      rw [if_pos rfl, List.append_assoc]
    · rw [if_neg hn, hpopped.bind_recordOf hn]
      rfl
  · have hold := inv.once n
    have hnew : Flight.recordOf n ⟨thread, target, signal, timer, none⟩ =
        timer.bind (·.recordOf n) := rfl
    dsimp only
    rw [change_apply, filterMap_cons_toList, hnew, List.perm_iff_count]
    rw [List.perm_iff_count] at hold
    intro r
    have hr := hold r
    by_cases hn : n = signal
    · subst hn
      simp only [if_pos, List.count_append] at hr ⊢
      omega
    · rw [if_neg hn, hpopped.bind_recordOf hn]
      simp only [Option.toList_none, List.nil_append, List.count_append] at hr ⊢
      omega
  · have hold := inv.expirations id
    have hsum := hpopped.sum_eq id
    have hnew : Flight.expirations id ⟨thread, target, signal, timer, none⟩ =
        Flight.expirations id ⟨0, target, signal, timer, none⟩ := rfl
    simp only [List.map_cons, List.sum_cons, hnew]
    omega
  · rcases List.mem_cons.mp hf with rfl | hf
    · exact hpopped.ok
    · exact inv.flightsOk f hf

variable {f : Flight}

theorem once_left (inv : Inv s) (hf : f ∈ s.flights) (signal : Nat) :
    (s.gone signal).Perm ((f.recordOf signal).toList ++
      ((s.flights.erase f).filterMap (·.recordOf signal) ++
        (s.delivered signal ++ s.discarded signal))) := by
  have hperm := (List.perm_cons_erase hf).filterMap (·.recordOf signal)
  rw [filterMap_cons_toList] at hperm
  rw [← List.append_assoc]
  exact (inv.once signal).trans (hperm.append_right _)

theorem expirations_left (inv : Inv s) (hf : f ∈ s.flights) (id : Int) :
    s.expired id = s.deliveries id + s.overruns id + s.dropped id +
      (s.queue.map (·.expirations id)).sum +
        (f.expirations id + ((s.flights.erase f).map (·.expirations id)).sum) := by
  have hsum : (s.flights.map (·.expirations id)).sum =
      f.expirations id + ((s.flights.erase f).map (·.expirations id)).sum := by
    rw [((List.perm_cons_erase hf).map _).sum_eq, List.map_cons, List.sum_cons]
  rw [← hsum]
  exact inv.expirations id

theorem once_without (inv : Inv s) (hf : f ∈ s.flights) (hnone : ∀ signal, f.recordOf signal = none)
    (signal : Nat) :
    (s.gone signal).Perm ((s.flights.erase f).filterMap (·.recordOf signal) ++
      (s.delivered signal ++ s.discarded signal)) := by
  have hleft := inv.once_left hf signal
  rw [hnone signal] at hleft
  exact hleft

theorem expirations_without (inv : Inv s) (hf : f ∈ s.flights) (hzero : ∀ id, f.expirations id = 0)
    (id : Int) :
    s.expired id = s.deliveries id + s.overruns id + s.dropped id +
      (s.queue.map (·.expirations id)).sum + ((s.flights.erase f).map (·.expirations id)).sum := by
  have hleft := inv.expirations_left hf id
  rw [hzero id, Int.zero_add] at hleft
  exact hleft

variable {t : TimerSignal}

theorem once_record (inv : Inv s) (hf : f ∈ s.flights) (htimer : f.timer = some t)
    (hqueued : t.queued = some record) (signal : Nat) :
    (s.gone signal).Perm ((if record.signal = signal then [record] else []) ++
      ((s.flights.erase f).filterMap (·.recordOf signal) ++
        (s.delivered signal ++ s.discarded signal))) := by
  have hleft := inv.once_left hf signal
  rw [Flight.recordOf, htimer, Option.bind_some, recordOf_record hqueued] at hleft
  by_cases hsame : record.signal = signal
  · rw [if_pos hsame] at hleft ⊢
    exact hleft
  · rw [if_neg hsame] at hleft ⊢
    exact hleft

theorem expirations_timed (inv : Inv s) (hf : f ∈ s.flights) (htimer : f.timer = some t)
    (hqueued : t.queued = none) (id : Int) :
    s.expired id = s.deliveries id + s.overruns id + s.dropped id +
      (s.queue.map (·.expirations id)).sum + ((if id = t.id then t.overrun + 1 else 0) +
        ((s.flights.erase f).map (·.expirations id)).sum) := by
  have hleft := inv.expirations_left hf id
  rw [Flight.expirations, htimer] at hleft
  dsimp only at hleft
  rw [expirations_timer hqueued] at hleft
  exact hleft

theorem recordOf_timed (htimer : f.timer = some t)
    (hqueued : t.queued = none) (signal : Nat) : f.recordOf signal = none := by
  rw [Flight.recordOf, htimer, Option.bind_some, recordOf_timer hqueued]

theorem expirations_valued (htimer : f.timer = some t) (hqueued : t.queued = some record)
    (id : Int) : f.expirations id = 0 := by
  rw [Flight.expirations, htimer]
  exact expirations_record hqueued id

theorem flightsOk_erase (inv : Inv s) (f : Flight) : ∀ x ∈ s.flights.erase f, x.Ok :=
  fun x hx => inv.flightsOk x (List.mem_of_mem_erase hx)

theorem erase (inv : Inv s) (hf : f ∈ s.flights) (htimer : f.timer = none) :
    Inv { s with flights := s.flights.erase f } :=
  { inv with
    once := inv.once_without hf fun _ => by rw [Flight.recordOf, htimer, Option.bind_none]
    expirations := inv.expirations_without hf fun _ => by rw [Flight.expirations, htimer]
    flightsOk := inv.flightsOk_erase f }

theorem fill (inv : Inv s) (hf : f ∈ s.flights) : Inv (s.fill f) := by
  unfold State.fill
  dsimp only
  split
  · next htimer => exact inv.erase hf htimer
  · next t htimer =>
    split
    · next record hqueued =>
      refine { inv with
        once := fun n => ?_
        expirations := inv.expirations_without hf (expirations_valued htimer hqueued)
        flightsOk := inv.flightsOk_erase f }
      have hleft := inv.once_record hf htimer hqueued n
      dsimp only
      rw [change_apply]
      by_cases hsame : n = record.signal
      · rw [if_pos hsame]
        rw [if_pos hsame.symm] at hleft
        exact perm_delivered (hsame ▸ hleft)
      · rw [if_neg hsame]
        rw [if_neg fun h => hsame h.symm] at hleft
        exact hleft
    · next hqueued =>
      refine { inv with
        once := inv.once_without hf (recordOf_timed htimer hqueued)
        expirations := fun id => ?_
        flightsOk := inv.flightsOk_erase f }
      have hleft := inv.expirations_timed hf htimer hqueued id
      dsimp only
      rw [change_apply, change_apply]
      by_cases hid : id = t.id
      · subst hid
        rw [if_pos rfl, if_pos rfl]
        rw [if_pos rfl] at hleft
        omega
      · rw [if_neg hid, if_neg hid]
        rw [if_neg hid] at hleft
        omega

theorem discard (inv : Inv s) (hf : f ∈ s.flights) : Inv (s.discard f) := by
  unfold State.discard
  dsimp only
  split
  · next htimer => exact inv.erase hf htimer
  · next t htimer =>
    split
    · next record hqueued =>
      refine { inv with
        once := fun n => ?_
        expirations := inv.expirations_without hf (expirations_valued htimer hqueued)
        flightsOk := inv.flightsOk_erase f }
      have hleft := inv.once_record hf htimer hqueued n
      dsimp only
      rw [change_apply]
      by_cases hsame : n = record.signal
      · rw [if_pos hsame]
        rw [if_pos hsame.symm] at hleft
        exact perm_discarded (hsame ▸ hleft)
      · rw [if_neg hsame]
        rw [if_neg fun h => hsame h.symm] at hleft
        exact hleft
    · next hqueued =>
      refine { inv with
        once := inv.once_without hf (recordOf_timed htimer hqueued)
        expirations := fun id => ?_
        flightsOk := inv.flightsOk_erase f }
      have hleft := inv.expirations_timed hf htimer hqueued id
      dsimp only
      rw [change_apply]
      by_cases hid : id = t.id
      · subst hid
        rw [if_pos rfl]
        rw [if_pos rfl] at hleft
        omega
      · rw [if_neg hid]
        rw [if_neg hid] at hleft
        omega

theorem putBack (inv : Inv s) (hf : f ∈ s.flights) (h : Returnable s f) : Inv (s.putBack f) := by
  have hfOk := inv.flightsOk f hf
  unfold State.putBack
  dsimp only
  split
  · next htimer =>
    exact { inv.erase hf htimer with bits := bits_raise inv.bits f.target f.signal }
  · next t htimer =>
    obtain ⟨htarget, hsignal, ht⟩ := hfOk t htimer
    have hreturn := h t htimer
    have hfor : t.isFor f.target f.signal := isFor_iff.mpr ⟨htarget, hsignal⟩
    have hnotFor : ∀ target n, ¬ (target = f.target ∧ n = f.signal) → t.isFor target n = false := by
      intro target n hother
      rw [← Bool.not_eq_true, isFor_iff, htarget, hsignal]
      rintro ⟨rfl, rfl⟩
      exact hother ⟨rfl, rfl⟩
    split
    · next record hqueued =>
      rw [hqueued] at hreturn
      have hlast : s.gone record.signal = (s.gone record.signal).dropLast ++ [record] :=
        (List.dropLast_append_getLast? record hreturn).symm
      refine {
        bits := bits_push inv.bits ?_ fun target n hother => ?_
        fifo := fun n => ?_
        once := fun n => ?_
        single := fun id => ?_
        expirations := fun id => ?_
        queueOk := ?_
        flightsOk := inv.flightsOk_erase f }
      · rw [List.any_cons, hfor, Bool.true_or]
      · rw [List.any_cons, hnotFor target n hother, Bool.false_or]
      · dsimp only
        rw [change_apply, filterMap_cons_toList, recordOf_record hqueued, inv.fifo n]
        by_cases hsame : n = record.signal
        · subst hsame
          rw [if_pos rfl, if_pos rfl, ← List.append_assoc]
          exact congrArg (· ++ _) hlast
        · rw [if_neg hsame, if_neg fun h => hsame h.symm]
          rfl
      · have hleft := inv.once_record hf htimer hqueued n
        dsimp only
        rw [change_apply]
        by_cases hsame : n = record.signal
        · subst hsame
          rw [if_pos rfl]
          rw [if_pos rfl, hlast] at hleft
          exact (List.perm_cons record).mp ((List.perm_append_singleton record _).symm.trans hleft)
        · rw [if_neg hsame]
          rw [if_neg fun h => hsame h.symm] at hleft
          exact hleft
      · have hnot : t.isTimer id = false := by
          unfold TimerSignal.isTimer
          rw [hqueued]
          rfl
        rw [List.countP_cons, hnot]
        exact inv.single id
      · have hleft := inv.expirations_without hf (expirations_valued htimer hqueued) id
        dsimp only
        rw [List.map_cons, List.sum_cons, expirations_record hqueued, Int.zero_add]
        exact hleft
      · intro x hx
        rcases List.mem_cons.mp hx with rfl | hx
        · exact ht
        · exact inv.queueOk x hx
    · next hqueued =>
      rw [hqueued] at hreturn
      have hadded : Added t s.queue (if s.queue.any (·.isTimer t.id) then
          merge t.id t.overrun s.queue else t :: s.queue) := by
        split
        · next hsome => exact added_merge hqueued hsome hreturn
        · next hnone => exact added_new hqueued hnone (.inr rfl)
      refine {
        bits := bits_push inv.bits ?_ fun target n hother => ?_
        fifo := fun n => ?_
        once := fun n => ?_
        single := hadded.single inv.single
        expirations := fun id => ?_
        queueOk := hadded.ok inv.queueOk
        flightsOk := inv.flightsOk_erase f }
      · rw [hadded.any_eq, hfor, Bool.or_true]
      · rw [hadded.any_eq, hnotFor target n hother, Bool.or_false]
      · rw [hadded.records]
        exact inv.fifo n
      · exact inv.once_without hf (recordOf_timed htimer hqueued) n
      · have hleft := inv.expirations_left hf id
        rw [Flight.expirations, htimer] at hleft
        dsimp only at hleft ⊢
        rw [hadded.sum_eq]
        omega

theorem mem_of_flightOf {thread : Nat} (h : s.flightOf thread = some f) :
    f ∈ s.flights := List.mem_of_find?_eq_some h

theorem takePending (inv : Inv s) (thread : Nat) (mask : Nat → Bool) :
    Inv (s.takePending thread mask) := by
  unfold State.takePending
  split
  · next signal _ _ =>
    have haccept := inv.accept thread signal
    dsimp only
    split
    · exact haccept
    · next f hf => exact haccept.fill (mem_of_flightOf hf)
  · exact inv

theorem claim (inv : Inv s) (thread : Nat) : Inv (s.claim thread) := by
  unfold State.claim
  split
  · next signal _ _ =>
    have hchosen : Inv { s with chosen := Function.update s.chosen thread none } := { inv with }
    exact hchosen.accept thread signal
  · exact inv

theorem choose (inv : Inv s) (thread : Nat) (blocked : Nat → Bool) :
    Inv (s.choose thread blocked) := { inv with }

theorem decided (inv : Inv s) (hf : f ∈ s.flights) (d : Decision) :
    Inv { s with flights := { f with decision := some d } :: s.flights.erase f } := by
  refine { inv with
    once := fun n => ?_
    expirations := fun id => ?_
    flightsOk := fun x hx => ?_ }
  · have hleft := inv.once_left hf n
    rw [← List.append_assoc] at hleft
    dsimp only
    rw [filterMap_cons_toList]
    exact hleft
  · have hleft := inv.expirations_left hf id
    dsimp only
    rw [List.map_cons, List.sum_cons]
    exact hleft
  · rcases List.mem_cons.mp hx with rfl | hx
    · exact inv.flightsOk f hf
    · exact inv.flightsOk_erase f x hx

theorem decide (inv : Inv s) (thread : Nat) (active : Bool) : Inv (s.decide thread active) := by
  unfold State.decide
  split
  · exact inv
  · next f hf =>
    have hmem := mem_of_flightOf hf
    split
    · exact inv
    dsimp only
    split
    · split <;> exact inv.decided hmem _
    · exact inv.discard hmem

theorem flights_sigaction (s : State) (signal : Nat) (action : Action) :
    (s.sigaction signal action).flights = s.flights := by
  unfold State.sigaction
  split
  · rfl
  · dsimp only
    split <;> rfl

theorem finish (inv : Inv s) (thread : Nat) (h : Allowed s (.finish thread)) :
    Inv (s.finish thread) := by
  unfold State.finish
  split
  · exact inv
  · next f hf =>
    have hmem := mem_of_flightOf hf
    split
    · exact inv
    · next hdecision => exact inv.putBack hmem (h f hf hdecision)
    · next reset hdecision =>
      dsimp only
      split
      · refine (inv.sigaction f.signal {}).fill ?_
        rw [flights_sigaction]
        exact hmem
      · exact inv.fill hmem

theorem step (inv : Inv s) (call : Call) (h : Allowed s call) : Inv (s.step call) := by
  cases call with
  | raiseCheck signal => exact inv.raiseCheck signal
  | raiseSet signal => exact inv.raiseSet signal
  | raiseThread thread signal alive => exact inv.raiseThread thread signal alive
  | queueValue record => exact inv.queueValue record
  | queueTimer target signal id value overrun alive => exact inv.queueTimer value alive h
  | sigaction signal action => exact inv.sigaction signal action
  | takePending thread mask => exact inv.takePending thread mask
  | choose thread blocked => exact inv.choose thread blocked
  | claim thread => exact inv.claim thread
  | decide thread active => exact inv.decide thread active
  | finish thread => exact inv.finish thread h

end Inv

/-! ## Runs -/

theorem inv_start (actions : Nat → Action) : Inv { actions } where
  bits _ _ := rfl
  fifo _ := rfl
  once _ := .refl _
  single _ := Nat.zero_le _
  expirations _ := rfl
  queueOk _ h := nomatch h
  flightsOk _ h := nomatch h

/-- In every run of steps that are allowed, every state is lawful, whatever the order of the steps
of different threads. -/
theorem signals_lawful (actions : Nat → Action) (calls : List Call)
    (h : EveryStep State.step Allowed { actions } calls) :
    EveryState State.step Lawful { actions } calls := by
  have hstep : ∀ s call, Inv s → Allowed s call → Inv (s.step call) :=
    fun s call inv hok => inv.step call hok
  exact (EveryState.of_preserved hstep (inv_start actions) h).mono fun s inv => inv.toLawful

/-- The handlers want the registers of the guest. -/
def registers : Nat → Action := fun _ => ⟨.handle, SA_SIGINFO ||| SA_ONSTACK⟩

/-- A timer expires three times in two calls, and a thread takes the signal and puts it back. -/
def expiryCalls : List Call :=
  [.queueTimer none 10 7 0 0 true, .queueTimer none 10 7 0 1 true, .choose 3 fun _ => false,
    .claim 3, .decide 3 false, .finish 3]

theorem signals_lawful_expiry :
    EveryState State.step Lawful { actions := registers } expiryCalls := by
  refine signals_lawful registers expiryCalls
    ⟨fun _ _ _ => nofun, ?_, trivial, trivial, trivial, ?_, trivial⟩
  · intro _ _ _ t ht htimer
    have hqueue : (State.step { actions := registers } (.queueTimer none 10 7 0 0 true)).queue =
        [⟨none, 10, 7, 0, 0, none⟩] := by decide
    rw [hqueue, List.mem_singleton] at ht
    subst ht
    exact ⟨rfl, rfl, ⟨by decide, by decide⟩, ⟨by decide, by decide⟩⟩
  intro f hf hdecision t htimer
  have hflight : (run State.step { actions := registers } (expiryCalls.take 5)).flightOf 3 =
      some ⟨3, none, 10, some ⟨none, 10, 7, 0, 2, none⟩, some .putBack⟩ := by decide
  have hqueue : (run State.step { actions := registers } (expiryCalls.take 5)).queue = [] := by
    decide
  have hf' := hflight.symm.trans hf
  cases hf'
  cases htimer
  intro x hx
  have hx' : x ∈ (run State.step { actions := registers } (expiryCalls.take 5)).queue := hx
  rw [hqueue] at hx'
  cases hx'

/-- A timer expires for the process, and again after it was armed for the thread 5. -/
def rearmedCalls : List Call :=
  [.queueTimer none 10 7 0 0 true, .queueTimer (some 5) 10 7 0 0 true]

/-- Not every run is lawful: the bit of the thread is set, and no entry is for it. -/
theorem rearmed_phantom : ¬ ∀ calls, EveryState State.step Lawful {} calls := by
  intro h
  have hbit := (h rearmedCalls).last.bits (some 5) 10
  revert hbit
  decide

end Kinakaze.Signal
