import Kinakaze.Epoll.Set

/-!
# What a wait samples

* `Within`: bits of one among the bits of another.
* `sampled_within`: a sample holds only what was asked for, `EPOLLERR` and `EPOLLHUP`.
* `finishDelivery_refused`, `finishDelivery_accepted`: the two ends of a delivery.
-/

namespace Kinakaze.Epoll

def Within (a b : Bits) : Prop := ∀ i, a.getLsbD i = true → b.getLsbD i = true

/-- What may be reported to a registration. -/
def reportable (interest : Bits) : Bits := interest ||| EPOLLERR ||| EPOLLHUP

/-! ## Bits -/

section Bits

variable {a b c : Bits} {i : Nat}

theorem Within.or (h : Within a c) (h' : Within b c) : Within (a ||| b) c := by
  intro i hi
  rw [BitVec.getLsbD_or, Bool.or_eq_true] at hi
  exact hi.elim (h i) (h' i)

theorem Within.trans (h : Within a b) (h' : Within b c) : Within a c := fun i hi => h' i (h i hi)

theorem within_and_left (a b : Bits) : Within (a &&& b) a := by
  intro i hi
  rw [BitVec.getLsbD_and, Bool.and_eq_true] at hi
  exact hi.1

theorem within_and_right (a b : Bits) : Within (a &&& b) b := by
  intro i hi
  rw [BitVec.getLsbD_and, Bool.and_eq_true] at hi
  exact hi.2

theorem within_or_left (a b : Bits) : Within a (a ||| b) := by
  intro i hi
  rw [BitVec.getLsbD_or, hi, Bool.true_or]

theorem within_or_right (a b : Bits) : Within b (a ||| b) := by
  intro i hi
  rw [BitVec.getLsbD_or, hi, Bool.or_true]

theorem getLsbD_none (i : Nat) : (0 : Bits).getLsbD i = false := BitVec.getLsbD_zero

theorem zero_within (a : Bits) : Within 0 a := by
  intro i hi
  rw [getLsbD_none] at hi
  cases hi

theorem getLsbD_select (condition : Bool) (a : Bits) (i : Nat) :
    (select condition a).getLsbD i = (condition && a.getLsbD i) := by
  cases condition with
  | false => exact getLsbD_none i
  | true => rfl

theorem Within.select {condition : Bool} (h : Within a b) : Within (select condition a) b := by
  unfold Epoll.select
  split
  · exact h
  · exact zero_within b

theorem not_meets_iff : meets a b = false ↔ ∀ i, a.getLsbD i = true → b.getLsbD i = false := by
  unfold meets
  rw [bne_eq_false_iff_eq]
  constructor
  · intro h i hi
    have hbit := congrArg (BitVec.getLsbD · i) h
    simp only [BitVec.getLsbD_and, getLsbD_none, hi, Bool.true_and] at hbit
    exact hbit
  · intro h
    refine BitVec.eq_of_getLsbD_eq fun i _ => ?_
    rw [BitVec.getLsbD_and, getLsbD_none]
    cases hbit : a.getLsbD i with
    | false => rfl
    | true => rw [h i hbit, Bool.true_and]

theorem within_of_diff (h : a &&& ~~~b = 0) : Within a b := by
  intro i hi
  have hbit := congrArg (BitVec.getLsbD · i) h
  have hlt := BitVec.lt_of_getLsbD hi
  simp only [BitVec.getLsbD_and, BitVec.getLsbD_not, getLsbD_none, hi, hlt, decide_true,
    Bool.true_and, Bool.not_eq_false'] at hbit
  exact hbit

theorem getLsbD_diff : (a &&& ~~~b).getLsbD i = true ↔ a.getLsbD i = true ∧ b.getLsbD i = false
    := by
  rw [BitVec.getLsbD_and, BitVec.getLsbD_not, Bool.and_eq_true, Bool.and_eq_true,
    Bool.not_eq_true', decide_eq_true_eq]
  exact ⟨fun h => ⟨h.1, h.2.2⟩, fun h => ⟨h.1, BitVec.lt_of_getLsbD h.1, h.2⟩⟩

theorem rdhup_bit (h : EPOLLRDHUP.getLsbD i = true) : i = 13 := by
  have hlt := BitVec.lt_of_getLsbD h
  revert h
  revert i
  decide

end Bits

/-! ## Samples -/

theorem interest_within (interest : Bits) : Within interest (reportable interest) :=
  (within_or_left _ _).trans (within_or_left _ _)

theorem error_within (interest : Bits) : Within EPOLLERR (reportable interest) :=
  (within_or_right _ _).trans (within_or_left _ _)

theorem hangup_within (interest : Bits) : Within EPOLLHUP (reportable interest)
    := within_or_right _ _

theorem conditions_within (interest : Bits) (ready : Ready) :
    Within (conditions interest ready) (reportable interest) := by
  have hasked : ∀ bits, Within (bits &&& interest) (reportable interest) := fun bits =>
    (within_and_right bits interest).trans (interest_within interest)
  exact (((hasked _).select.or (hasked _).select).or (hangup_within interest).select).or
    (error_within interest).select

theorem packetConditions_within (interest mask : Bits) :
    Within (packetConditions interest mask) (reportable interest) := by
  have hasked : ∀ bits, Within (interest &&& bits) (reportable interest) := fun bits =>
    (within_and_left interest bits).trans (interest_within interest)
  exact ((within_and_right _ _).or (hasked _).select).or (hasked _).select

/-- AFD reports a disconnect as `EPOLLRDHUP` to everyone. -/
theorem afdToEvents_within {afd interest : Bits}
    (h : meets afd AFD_POLL_DISCONNECT → meets interest EPOLLRDHUP) :
    Within (afdToEvents afd interest) (reportable interest) := by
  intro i hi
  have hmask := within_and_right _ _ i hi
  rw [BitVec.getLsbD_or, Bool.or_eq_true] at hmask
  rcases hmask with hreportable | hrdhup
  · exact hreportable
  have hevent := within_and_left _ _ i hi
  obtain rfl := rdhup_bit hrdhup
  have hdisconnect : meets afd AFD_POLL_DISCONNECT = true := by
    by_contra hnot
    rw [Bool.not_eq_true] at hnot
    simp only [afdConditions, BitVec.getLsbD_or, getLsbD_select, hnot, Bool.false_and] at hevent
    simp [EPOLLIN, EPOLLRDNORM, EPOLLPRI, EPOLLRDBAND, EPOLLOUT, EPOLLWRNORM, EPOLLHUP,
      EPOLLERR] at hevent
  apply interest_within
  by_contra hnot
  rw [Bool.not_eq_true] at hnot
  have hnone : meets interest EPOLLRDHUP = false := by
    refine not_meets_iff.mpr fun j hj => ?_
    by_contra hrdhup
    rw [Bool.not_eq_false] at hrdhup
    rw [rdhup_bit hrdhup, hnot] at hj
    cases hj
  rw [h hdisconnect] at hnone
  cases hnone

namespace Registration

variable {r : Registration} {ready : Ready}

/-- The sample of a socket that was shut down has no `EPOLLRDHUP` that was not asked for. -/
def Asked (r : Registration) (ready : Ready) : Prop :=
  0 ≤ r.pollFd → r.category = .socket →
    meets ready.mask AFD_POLL_DISCONNECT → meets r.interest EPOLLRDHUP

theorem sampled_within (h : r.Asked ready) : Within (r.sampled ready) (reportable r.interest) := by
  unfold sampled
  split
  · exact conditions_within _ _
  · next hfd =>
    split
    · exact packetConditions_within _ _
    · split
      · exact within_and_right _ _
      · exact conditions_within _ _
    · next hsocket => exact afdToEvents_within (h (Int.not_lt.mp hfd) hsocket)
    · exact (within_and_left _ _).trans (interest_within _)
    · exact conditions_within _ _

theorem previous_within (edges : Edges) : Within (r.previous edges) r.reported :=
  within_and_left _ _

end Registration

/-! ## Deliveries -/

section Delivery

variable {r r' : Registration} {alive : Bool} {reported : Bits} {revision : BitVec 64}
  {edges : Option Edges}

theorem finishDelivery_refused (h : finishDelivery r alive reported revision edges = none)
    (hfd : 0 ≤ r.pollFd) (harmed : r.disarmed = false) : Within reported r.reported := by
  unfold finishDelivery at h
  split at h
  · next hrefused =>
    rcases hrefused with ⟨hnegative, -⟩ | hdisarmed | ⟨-, hsame, -⟩
    · omega
    · rw [harmed] at hdisarmed
      cases hdisarmed
    · exact within_of_diff hsame
  · cases h

theorem Registration.record_kept (r : Registration) (reported : Bits) (revision : BitVec 64)
    (edges : Option Edges) :
    (r.record reported revision edges).data = r.data ∧
      (r.record reported revision edges).interest = r.interest ∧
      (r.record reported revision edges).readinessRevision = r.readinessRevision := by
  unfold record
  split <;> exact ⟨rfl, rfl, rfl⟩

/-- What a delivery leaves: the history grows unless an I/O operation came in between, and a
one-shot registration is disarmed. -/
structure Accepted (r r' : Registration) (reported : Bits) (seen : BitVec 64) : Prop where
  armed : r.disarmed = false
  data : r'.data = r.data
  interest : r'.interest = r.interest
  revision : r'.readinessRevision = r.readinessRevision
  reported : r'.reported = r.reported ∨
    (r.readinessRevision = seen ∧ r'.reported = r.reported ||| reported)
  oneshot : r.oneshot → r'.disarmed = true

theorem finishDelivery_accepted (h : finishDelivery r alive reported revision edges = some r') :
    Accepted r r' reported revision := by
  unfold finishDelivery at h
  split at h
  · cases h
  · next hgo =>
    have harmed : r.disarmed = false := by
      cases hcase : r.disarmed with
      | false => rfl
      | true => exact absurd (.inr (.inl hcase)) hgo
    obtain ⟨hdata, hinterest, hrevision⟩ := r.record_kept reported revision edges
    have hreported : (r.record reported revision edges).reported = r.reported ∨
        (r.readinessRevision = revision ∧
          (r.record reported revision edges).reported = r.reported ||| reported) := by
      unfold Registration.record
      split
      · next hsame => exact .inr ⟨hsame, rfl⟩
      · exact .inl rfl
    dsimp only at h
    split at h
    · cases h
      exact ⟨harmed, hdata, hinterest, hrevision, hreported, fun _ => rfl⟩
    · next hshot =>
      cases h
      refine ⟨harmed, hdata, hinterest, hrevision, hreported, fun honeshot => ?_⟩
      unfold Registration.oneshot at hshot honeshot
      rw [hinterest] at hshot
      exact absurd honeshot hshot

end Delivery

end Kinakaze.Epoll
