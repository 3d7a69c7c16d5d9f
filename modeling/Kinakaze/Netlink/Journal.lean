import Kinakaze.Library.Codec

/-!
# The journal of link notifications

Route commits record what they change in a journal, which is stored with the routing state and
keeps the last messages up to a count and a size.
-/

namespace Kinakaze.Netlink

open Library

abbrev Bytes := List (BitVec 8)

def EINVAL : Int := 22
def EOVERFLOW : Int := 75
def EMSGSIZE : Int := 90
def ENOBUFS : Int := 105

def CAPACITY : Nat := 256
def MAX_BYTES : Nat := 256 * 1024

structure Message where
  serial : Nat
  source : Nat
  bytes : Bytes

structure Journal where
  sequence : Nat := 0
  messages : List Message := []

/-- The bytes of the messages' contents. -/
def size (messages : List Message) : Nat := (messages.map fun m => m.bytes.length).sum

/-! ## The stored form -/

/-- `CRYMC002`. -/
def magic : Bytes := [0x43, 0x52, 0x59, 0x4d, 0x43, 0x30, 0x30, 0x32]

def Message.encode (m : Message) : Bytes :=
  leBytes 8 m.serial ++ (leBytes 4 m.source ++ (leBytes 4 m.bytes.length ++ m.bytes))

def Journal.encode (j : Journal) : Except Int Bytes :=
  if j.messages.any fun m => m.bytes.length ≥ 2 ^ 32 then .error EMSGSIZE
  else
    .ok (magic ++ (leBytes 8 j.sequence ++ (leBytes 4 j.messages.length ++
      j.messages.flatMap Message.encode)))

/-- `take`: a number of fixed width. -/
def fixed (width : Nat) : Parser Int Nat := fun bytes =>
  if bytes.length < width then .error EINVAL
  else .ok (ofLe (bytes.take width), bytes.drop width)

/-- `bytes.get(..length)`. -/
def slice (length : Nat) : Parser Int Bytes := fun bytes =>
  if bytes.length < length then .error EINVAL else .ok (bytes.take length, bytes.drop length)

def NLMSG_HEADER_LEN : Nat := 16

/-- The length that `parse_header` reads. -/
def headerLength (bytes : Bytes) : Except Int Nat :=
  if bytes.length < NLMSG_HEADER_LEN then .error EINVAL
  else if ofLe (bytes.take 4) < NLMSG_HEADER_LEN || ofLe (bytes.take 4) > bytes.length then
    .error EINVAL
  else .ok (ofLe (bytes.take 4))

/-- A message of the kernel has a header that tells its length. -/
def framed (source : Nat) (bytes : Bytes) : Bool :=
  source != 0 || match headerLength bytes with
    | .ok length => length == bytes.length
    | .error _ => false

/-- The messages of the journal, from the given serial on. -/
def readMessages (hasSource : Bool) : Nat → Nat → Nat → Parser Int (List Message)
  | 0, _, _ => pure []
  | count + 1, next, total => do
    let serial ← fixed 8
    let source ← if hasSource then fixed 4 else pure 0
    let length ← fixed 4
    let bytes ← slice length
    refuse EINVAL (serial != next || !framed source bytes)
    refuse EINVAL (decide (total + length > MAX_BYTES))
    let rest ← readMessages hasSource count (next + 1) (total + length)
    pure (⟨serial, source, bytes⟩ :: rest)

def readJournal (hasSource : Bool) : Parser Int Journal := do
  let sequence ← fixed 8
  let count ← fixed 4
  refuse EINVAL (decide (count > CAPACITY))
  refuse EINVAL (decide (sequence < count))
  let messages ← readMessages hasSource count (sequence - count + 1) 0
  finish EINVAL
  pure ⟨sequence, messages⟩

def Journal.decode (bytes : Bytes) : Except Int Journal :=
  if bytes.isEmpty then .ok {}
  else if magic.isPrefixOf bytes then (readJournal true (bytes.drop 8)).map Prod.fst
  else (readJournal false bytes).map Prod.fst

/-! ## Recording -/

/-- Drops messages from the front until the rest is within the limits. -/
def trim : List Message → List Message
  | [] => []
  | m :: rest =>
    if (m :: rest).length > CAPACITY || size (m :: rest) > MAX_BYTES then trim rest
    else m :: rest

def Journal.push (j : Journal) (bytes : Bytes) (source : Nat) : Except Int Journal :=
  if bytes.length > MAX_BYTES then .error EMSGSIZE
  else if j.sequence + 1 ≥ 2 ^ 64 then .error EOVERFLOW
  else
    .ok
      { sequence := j.sequence + 1
        messages := trim (j.messages ++ [⟨j.sequence + 1, source, bytes⟩]) }

def RTM_NEWLINK : Nat := 16
def RTM_DELLINK : Nat := 17

/-- `append_header` for the payload, and the payload. -/
def reply (payload : Bytes) : Except Int Bytes :=
  if NLMSG_HEADER_LEN + payload.length ≥ 2 ^ 32 then .error EMSGSIZE
  else
    .ok (leBytes 4 (NLMSG_HEADER_LEN + payload.length) ++ (leBytes 2 RTM_NEWLINK ++
      (leBytes 2 0 ++ (leBytes 4 0 ++ (leBytes 4 0 ++ payload)))))

/-- `message[4..6]` becomes `RTM_DELLINK`. -/
def deleted (message : Bytes) : Bytes := message.take 4 ++ (leBytes 2 RTM_DELLINK ++ message.drop 6)

/-- What the links are: their numbers, and the payload of the messages about them. -/
structure Links (Link : Type) where
  index : Link → Nat
  payload : Link → Except Int Bytes
  loopback : Nat → Except Int Bytes

structure Network (Link : Type) where
  links : List Link := []
  loopbackFlags : Nat := 0
  notifications : Journal := {}

section Record

variable {Link : Type} [DecidableEq Link] (kinds : Links Link)

def storedLinkReply (link : Link) : Except Int Bytes := do
  let payload ← kinds.payload link
  reply payload

def pushAll {α : Type} (message : α → Except Int Bytes) : Journal → List α → Except Int Journal
  | j, [] => .ok j
  | j, a :: rest => do
    let bytes ← message a
    let j ← j.push bytes 0
    pushAll message j rest

/-- What another socket sent to the group, if anything. -/
def pushBroadcast (j : Journal) : Option (Nat × Bytes) → Except Int Journal
  | some (source, bytes) => j.push bytes source
  | none => .ok j

/-- The message about the loopback, outside of the first namespace. -/
def pushLoopback (id before after : Nat) (j : Journal) : Except Int Journal :=
  if id ≠ 1 ∧ before ≠ after then do
    let payload ← kinds.loopback after
    let bytes ← reply payload
    j.push bytes 0
  else .ok j

/-- The links that a commit took away. -/
def goneLinks (before : List Link) (state : Network Link) : List Link :=
  before.filter fun old => !state.links.any fun l => kinds.index l == kinds.index old

/-- The links that a commit added or changed. -/
def changedLinks (before : List Link) (state : Network Link) : List Link :=
  state.links.filter fun link =>
    before.find? (fun l => kinds.index l == kinds.index link) != some link

/-- `record`: the state after the commit, and the number in the name of its event. -/
def record (id : Nat) (before : Nat × List Link) (state : Network Link)
    (broadcast : Option (Nat × Bytes)) : Except Int (Network Link × Option Nat) := do
  let start := state.notifications.sequence
  let j ← pushBroadcast state.notifications broadcast
  let j ← pushAll (fun old => (storedLinkReply kinds old).map deleted) j
    (goneLinks kinds before.2 state)
  let j ← pushAll (storedLinkReply kinds) j (changedLinks kinds before.2 state)
  let j ← pushLoopback kinds id before.1 state.loopbackFlags j
  if j.sequence = start then .ok ({ state with notifications := j }, none)
  else if start + 1 ≥ 2 ^ 64 then .error EOVERFLOW
  else .ok ({ state with notifications := j }, some (start + 1))

end Record

/-! ## Sound journals -/

/-- A journal as pushing leaves it. -/
structure Journal.Sound (j : Journal) : Prop where
  sequence : j.sequence < 2 ^ 64
  length_le : j.messages.length ≤ j.sequence
  count : j.messages.length ≤ CAPACITY
  bytes : size j.messages ≤ MAX_BYTES
  serials : j.messages.map Message.serial =
    List.range' (j.sequence - j.messages.length + 1) j.messages.length
  framed : ∀ m ∈ j.messages, m.source < 2 ^ 32 ∧ framed m.source m.bytes = true

theorem sound_empty : Journal.Sound {} where
  sequence := by decide
  length_le := Nat.le_refl _
  count := Nat.zero_le _
  bytes := Nat.zero_le _
  serials := rfl
  framed := nofun

theorem trim_suffix (messages : List Message) : trim messages <:+ messages := by
  induction messages with
  | nil => exact List.suffix_refl _
  | cons m rest ih =>
    unfold trim
    split
    · exact ih.trans (List.suffix_cons m rest)
    · exact List.suffix_refl _

theorem trim_limits (messages : List Message) :
    (trim messages).length ≤ CAPACITY ∧ size (trim messages) ≤ MAX_BYTES := by
  induction messages with
  | nil => exact ⟨Nat.zero_le _, Nat.zero_le _⟩
  | cons m rest ih =>
    unfold trim
    split
    · exact ih
    · next h =>
      simp only [Bool.or_eq_true, decide_eq_true_eq, not_or, Nat.not_lt, gt_iff_lt] at h
      exact h

variable {bytes : Bytes}

theorem Journal.Sound.push {j j' : Journal} (h : j.Sound) {source : Nat} (hsource : source < 2 ^ 32)
    (hframed : Netlink.framed source bytes = true)
    (hok : j.push bytes source = .ok j') : j'.Sound := by
  unfold Journal.push at hok
  split at hok
  · cases hok
  split at hok
  · cases hok
  next hsequence =>
  cases hok
  set all := j.messages ++ [⟨j.sequence + 1, source, bytes⟩] with hall
  obtain ⟨front, hfront⟩ := trim_suffix all
  have hlength : front.length + (trim all).length = j.messages.length + 1 := by
    rw [← List.length_append, hfront, hall, List.length_append, List.length_singleton]
  have hle := h.length_le
  have hserials : all.map Message.serial =
      List.range' (j.sequence - j.messages.length + 1) (j.messages.length + 1) := by
    rw [hall, List.map_append, h.serials, List.range'_concat]
    simp only [List.map_cons, List.map_nil]
    congr 2
    omega
  refine ⟨by dsimp only; omega, by dsimp only; omega, (trim_limits all).1, (trim_limits all).2, ?_,
    fun m hm => ?_⟩
  · have hdrop : (trim all).map Message.serial = (all.map Message.serial).drop front.length := by
      have hmap := congrArg (List.map Message.serial) hfront
      rw [List.map_append] at hmap
      rw [← hmap, List.drop_left' (by rw [List.length_map])]
    dsimp only
    rw [hdrop, hserials, List.drop_range']
    congr 1
    · omega
    · omega
  · have hin : m ∈ all := (trim_suffix all).subset hm
    rcases List.mem_append.mp hin with hin | hin
    · exact h.framed m hin
    · rw [List.mem_singleton.mp hin]
      exact ⟨hsource, hframed⟩

/-! ## What the kernel sends has its length in front -/

variable {width value : Nat}

theorem ofLe_front (h : value < 256 ^ width) (rest : Bytes) :
    ofLe ((leBytes width value ++ rest).take width) = value := by
  rw [List.take_left' (length_leBytes width value), ofLe_leBytes_of_lt h]

theorem framed_of_front (hlength : NLMSG_HEADER_LEN ≤ bytes.length)
    (hfront : ofLe (bytes.take 4) = bytes.length) (source : Nat) : framed source bytes = true := by
  have hheader : headerLength bytes = .ok bytes.length := by
    rw [headerLength, if_neg (Nat.not_lt.mpr hlength), hfront, if_neg]
    simp only [Bool.or_eq_true, decide_eq_true_eq]
    omega
  rw [framed, hheader]
  simp

theorem reply_front {payload : Bytes} (h : reply payload = .ok bytes) :
    NLMSG_HEADER_LEN ≤ bytes.length ∧ ofLe (bytes.take 4) = bytes.length := by
  unfold reply at h
  split at h
  · cases h
  next hsmall =>
  cases h
  have hlength : (leBytes 4 (NLMSG_HEADER_LEN + payload.length) ++ (leBytes 2 RTM_NEWLINK ++
      (leBytes 2 0 ++ (leBytes 4 0 ++ (leBytes 4 0 ++ payload))))).length =
        NLMSG_HEADER_LEN + payload.length := by
    simp only [List.length_append, length_leBytes, NLMSG_HEADER_LEN]
    omega
  refine ⟨by rw [hlength]; exact Nat.le_add_right _ _, ?_⟩
  rw [hlength]
  exact ofLe_front (by omega) _

theorem deleted_front (hlength : NLMSG_HEADER_LEN ≤ bytes.length)
    (hfront : ofLe (bytes.take 4) = bytes.length) :
    NLMSG_HEADER_LEN ≤ (deleted bytes).length ∧
      ofLe ((deleted bytes).take 4) = (deleted bytes).length := by
  have hlen : NLMSG_HEADER_LEN = 16 := rfl
  have hsame : (deleted bytes).length = bytes.length := by
    simp only [deleted, List.length_append, List.length_take, List.length_drop, length_leBytes]
    omega
  refine ⟨by rw [hsame]; exact hlength, ?_⟩
  rw [hsame, deleted, List.take_left' (by rw [List.length_take]; omega), hfront]

/-! ## Reading back -/

theorem reads_fixed (h : value < 256 ^ width) :
    Reads (fixed width) (leBytes width value) value := by
  intro rest
  have hlen : ¬ (leBytes width value ++ rest).length < width := by
    rw [List.length_append, length_leBytes]
    omega
  rw [fixed, if_neg hlen, ofLe_front h, List.drop_left' (length_leBytes width value)]

theorem reads_slice (value : Bytes) : Reads (slice value.length) value value := by
  intro rest
  have hlen : ¬ (value ++ rest).length < value.length := by
    rw [List.length_append]
    omega
  rw [slice, if_neg hlen, List.take_left' rfl, List.drop_left' rfl]

variable {messages : List Message}

theorem reads_messages {next total : Nat}
    (hserials : messages.map Message.serial = List.range' next messages.length)
    (hlast : next + messages.length ≤ 2 ^ 64) (hbytes : total + size messages ≤ MAX_BYTES)
    (hframed : ∀ m ∈ messages, m.source < 2 ^ 32 ∧ framed m.source m.bytes = true) :
    Reads (readMessages true messages.length next total) (messages.flatMap Message.encode)
      messages := by
  induction messages generalizing next total with
  | nil => exact Reads.pure []
  | cons m rest ih =>
    have hmax : MAX_BYTES < 2 ^ 32 := by decide
    rw [List.map_cons, List.length_cons, List.range'_succ] at hserials
    obtain ⟨hserial, hserials⟩ := List.cons.inj hserials
    rw [List.length_cons] at hlast
    rw [size, List.map_cons, List.sum_cons] at hbytes
    have hrest : total + m.bytes.length + size rest ≤ MAX_BYTES := by
      unfold size
      omega
    have hm := hframed m List.mem_cons_self
    rw [List.flatMap_cons, Message.encode]
    simp only [List.append_assoc]
    refine (reads_fixed (by omega)).bind ?_
    refine Reads.bind (f := fun source => _) (a := m.source) ?_ ?_
    · exact reads_fixed hm.1
    refine (reads_fixed (by omega)).bind ?_
    refine (reads_slice m.bytes).bind ?_
    refine @Reads.bind _ _ _ _ _ [] _ _ _ (reads_refuse EINVAL ?_) ?_
    · rw [hserial, hm.2]
      simp
    refine @Reads.bind _ _ _ _ _ [] _ _ _ (reads_refuse EINVAL (decide_eq_false (by omega))) ?_
    exact (ih hserials (by omega) hrest fun m' hm' => hframed m' (List.mem_cons_of_mem m hm')).map
      (m :: ·)

theorem length_le_size {m : Message} (h : m ∈ messages) : m.bytes.length ≤ size messages := by
  obtain ⟨front, back, rfl⟩ := List.append_of_mem h
  simp only [size, List.map_append, List.map_cons, List.sum_append, List.sum_cons]
  omega

theorem decode_encode {j : Journal} (h : j.Sound) :
    ∃ bytes, j.encode = .ok bytes ∧ Journal.decode bytes = .ok j := by
  have hmax : MAX_BYTES < 2 ^ 32 := by decide
  have hsmall : (j.messages.any fun m => decide (m.bytes.length ≥ 2 ^ 32)) = false := by
    rw [List.any_eq_false]
    intro m hm
    have hle : m.bytes.length ≤ size j.messages :=
      length_le_size hm
    have hbytes := h.bytes
    simp only [decide_eq_true_eq]
    omega
  have hcount := h.count
  have hle := h.length_le
  have hsequence := h.sequence
  have hcapacity : CAPACITY < 2 ^ 32 := by decide
  have hread : readJournal true (leBytes 8 j.sequence ++ (leBytes 4 j.messages.length ++
      (j.messages.flatMap Message.encode ++ []))) = .ok (j, []) := by
    rw [readJournal, (reads_fixed (by omega)).run, (reads_fixed (by omega)).run,
      run_refuse EINVAL (decide_eq_false (by omega)),
      run_refuse EINVAL (decide_eq_false (by omega)),
      (reads_messages h.serials (by omega) (by rw [Nat.zero_add]; exact h.bytes) h.framed).run,
      run_finish_nil]
    rfl
  rw [List.append_nil] at hread
  refine ⟨_, by rw [Journal.encode, hsmall]; rfl, ?_⟩
  rw [Journal.decode]
  have hdrop : (magic ++ (leBytes 8 j.sequence ++ (leBytes 4 j.messages.length ++
      j.messages.flatMap Message.encode))).drop 8 = leBytes 8 j.sequence ++
        (leBytes 4 j.messages.length ++ j.messages.flatMap Message.encode) :=
    List.drop_left' rfl
  have hinit : magic.isPrefixOf (magic ++ (leBytes 8 j.sequence ++
      (leBytes 4 j.messages.length ++ j.messages.flatMap Message.encode))) = true :=
    List.isPrefixOf_iff_prefix.mpr (List.prefix_append _ _)
  rw [if_neg (by simp [magic]), if_pos hinit, hdrop, hread]
  rfl

end Kinakaze.Netlink
