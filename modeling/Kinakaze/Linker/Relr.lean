import Kinakaze.Library.LittleEndian

/-!
# Relative relocations

`DT_RELR` of an object: an even word is an address to relocate, an odd one a bitmap of the words
that follow. `apply_relr` decodes the table as it relocates.
-/

namespace Kinakaze.Linker

open Library

inductive RelocationError where
  | addressOverflow
  | integerOverflow
  | truncated
  deriving DecidableEq

/-- `TableLocation`. -/
structure RelrTable where
  fileOffset : Nat
  size : Option Nat
  entrySize : Option Nat

def RelrTable.count (table : RelrTable) : Option Nat :=
  match table.size, table.entrySize with
  | some size, some entry => if entry = 0 then none else some (size / entry)
  | _, _ => none

/-- A mapped object: its file, and where the image from `spanStart` to `spanEnd` lies. -/
structure Image where
  bytes : List (BitVec 8)
  relr : Option RelrTable
  spanStart : Nat
  spanEnd : Nat
  allocation : Nat
  spanEnd_lt : spanEnd < 2 ^ 64
  placed : allocation + (spanEnd - spanStart) < 2 ^ 64

/-- The bytes at the addresses of the process. -/
abbrev Bytes := Nat → BitVec 8

def load (m : Bytes) (address : Nat) : Nat := ofLe ((List.range 8).map fun i => m (address + i))

def store (m : Bytes) (address value : Nat) : Bytes := fun byte =>
  if address ≤ byte ∧ byte < address + 8 then (leBytes 8 value).getD (byte - address) 0 else m byte

def add64 (a b : Nat) : Except RelocationError Nat :=
  if a + b < 2 ^ 64 then .ok (a + b) else .error .addressOverflow

namespace Image

variable (o : Image)

def loadBias : Int := o.allocation - o.spanStart

/-- `load_bias.checked_add`, as a 64-bit value. -/
def biased (value : Int) : Except RelocationError Nat :=
  if -2 ^ 127 ≤ o.loadBias + value ∧ o.loadBias + value < 2 ^ 127 then
    if 0 ≤ o.loadBias + value ∧ o.loadBias + value < 2 ^ 64 then .ok (o.loadBias + value).toNat
    else .error .addressOverflow
  else .error .addressOverflow

def resolveAddress (virtualAddress : Nat) : Except RelocationError Nat := o.biased virtualAddress

def relocateRelative (m : Bytes) (virtualAddress : Nat) : Except RelocationError Bytes := do
  let target ← o.resolveAddress virtualAddress
  let value ← o.biased (load m target)
  return store m target value

/-- `apply_one` of a `RELATIVE` relocation. -/
def applyRelative (m : Bytes) (relocation : Nat × Int) : Except RelocationError Bytes := do
  let target ← o.resolveAddress relocation.1
  let value ← o.biased relocation.2
  return store m target value

def slice (offset length : Nat) : Except RelocationError (List (BitVec 8)) :=
  if offset + length < 2 ^ 64 then
    if offset + length ≤ o.bytes.length then .ok ((o.bytes.drop offset).take length)
    else .error .truncated
  else .error .integerOverflow

/-- The words of the table; none where there is no table, or no size of it. -/
def relrWords : Except RelocationError (List Nat) :=
  match o.relr with
  | none => .ok []
  | some table =>
    match table.count with
    | none => .ok []
    | some count => do
      if count * 8 < 2 ^ 64 then
        let entries ← o.slice table.fileOffset (count * 8)
        return (chunksExact 8 entries).map ofLe
      else throw .addressOverflow

/-- The loop on the bits of a bitmap, of which no more than `room` are left. -/
def bitLoop : Nat → Nat → Nat → Bytes × Nat → Except RelocationError (Bytes × Nat)
  | 0, _, _, s => .ok s
  | room + 1, bits, position, (m, applied) =>
    if bits = 0 then .ok (m, applied)
    else do
      let s ← if bits % 2 ≠ 0 then do
          let m ← o.relocateRelative m position
          pure (m, applied + 1)
        else pure (m, applied)
      let position ← add64 position 8
      bitLoop room (bits / 2) position s

def relrLoop : List Nat → Nat → Bytes × Nat → Except RelocationError (Bytes × Nat)
  | [], _, s => .ok s
  | word :: words, cursor, (m, applied) =>
    if word % 2 = 0 then do
      let m ← o.relocateRelative m word
      let cursor ← add64 word 8
      relrLoop words cursor (m, applied + 1)
    else do
      let s ← o.bitLoop 63 (word / 2) cursor (m, applied)
      let cursor ← add64 cursor (63 * 8)
      relrLoop words cursor s

def applyRelr (m : Bytes) : Except RelocationError (Bytes × Nat) := do
  let words ← o.relrWords
  o.relrLoop words 0 (m, 0)

end Image

/-! ## Tables and the addresses they stand for -/

/-- The addresses of a bitmap: bit `i` is that of the word `8 * i` bytes on. -/
def covered (room bits position : Nat) : List Nat :=
  ((List.range room).filter fun i => bits.testBit i).map fun i => position + 8 * i

/-- A table begins with an address. After an address and after a bitmap the next bitmap starts at
the word that follows. -/
inductive Encodes : Option Nat → List Nat → List Nat → Prop
  | nil (cursor : Option Nat) : Encodes cursor [] []
  | address {cursor : Option Nat} {words addresses : List Nat} (a : Nat) : a % 2 = 0 →
      Encodes (some (a + 8)) words addresses → Encodes cursor (a :: words) (a :: addresses)
  | bitmap {cursor : Nat} {words addresses : List Nat} (bits : Nat) : bits < 2 ^ 63 →
      Encodes (some (cursor + 63 * 8)) words addresses →
        Encodes (some cursor) ((2 * bits + 1) :: words) (covered 63 bits cursor ++ addresses)

/-- The words that the bitmaps of a table cover have 64-bit addresses. -/
def Reaches : Nat → List Nat → Prop
  | _, [] => True
  | cursor, word :: words =>
    if word % 2 = 0 then Reaches (word + 8) words
    else cursor + 63 * 8 < 2 ^ 64 ∧ Reaches (cursor + 63 * 8) words

instance : ∀ (cursor : Nat) (words : List Nat), Decidable (Reaches cursor words)
  | _, [] => .isTrue trivial
  | cursor, word :: words =>
    have := instDecidableReaches (word + 8) words
    have := instDecidableReaches (cursor + 63 * 8) words
    inferInstanceAs (Decidable (if word % 2 = 0 then _ else _))

/-! ## Memory -/

variable {m m' : Bytes} {a b : Nat}

theorem load_congr (h : ∀ i < 8, m' (a + i) = m (a + i)) : load m' a = load m a := by
  unfold load
  rw [List.map_congr_left fun i hi => h i (List.mem_range.mp hi)]

theorem load_store {value : Nat} (h : value < 2 ^ 64) : load (store m a value) a = value := by
  have hbytes : (List.range 8).map (fun i => store m a value (a + i)) = leBytes 8 value := by
    apply List.ext_getElem
    · simp
    · intro i hi hi'
      rw [length_leBytes] at hi'
      simp [store, hi']
  unfold load
  rw [hbytes]
  exact ofLe_leBytes_of_lt h

theorem store_of_outside {value byte : Nat} (h : byte < a ∨ a + 8 ≤ byte) :
    store m a value byte = m byte := if_neg (by omega)

theorem load_store_of_disjoint {value : Nat} (h : a + 8 ≤ b ∨ b + 8 ≤ a) :
    load (store m a value) b = load m b :=
  load_congr fun _ hi => store_of_outside (by omega)

/-! ## Decoding -/

theorem covered_zero (room position : Nat) : covered room 0 position = [] := by
  simp [covered]

theorem covered_succ (room bits position : Nat) : covered (room + 1) bits position =
    (if bits % 2 ≠ 0 then [position] else []) ++ covered room (bits / 2) (position + 8) := by
  have htail : ((List.range room).map Nat.succ).filter (fun i => bits.testBit i) =
      ((List.range room).filter fun i => (bits / 2).testBit i).map Nat.succ := by
    rw [List.filter_map]
    congr 1
    exact List.filter_congr fun i _ => Nat.testBit_succ bits i
  have hmap : ∀ l : List Nat, (l.map Nat.succ).map (fun i => position + 8 * i) =
      l.map fun i => position + 8 + 8 * i := by
    intro l
    rw [List.map_map]
    exact List.map_congr_left fun i _ => by simp only [Function.comp]; omega
  unfold covered
  rw [List.range_succ_eq_map, List.filter_cons, htail]
  by_cases hbit : bits % 2 = 0
  · rw [if_neg (by simp [Nat.testBit_zero, hbit]), hmap, if_neg (not_not.mpr hbit), List.nil_append]
  · rw [if_pos (by simp [Nat.testBit_zero]; omega), List.map_cons, hmap, if_pos hbit]
    rfl

namespace Image

variable {o : Image}

/-- Relocating the words at the addresses in turn. -/
def run (o : Image) (addresses : List Nat) (m : Bytes) : Except RelocationError Bytes :=
  addresses.foldlM o.relocateRelative m

/-- A run, with the number of words it has relocated. -/
def counted (o : Image) (addresses : List Nat) (s : Bytes × Nat) :
    Except RelocationError (Bytes × Nat) := do
  let m ← o.run addresses s.1
  return (m, s.2 + addresses.length)

theorem counted_append (l l' : List Nat) (s : Bytes × Nat) :
    o.counted (l ++ l') s = o.counted l s >>= o.counted l' := by
  unfold counted run
  rw [List.foldlM_append, List.length_append]
  cases l.foldlM o.relocateRelative s.1 with
  | error e => rfl
  | ok m => simp [bind, Except.bind, pure, Except.pure, Nat.add_assoc]

theorem counted_one (a : Nat) (s : Bytes × Nat) :
    o.counted [a] s = o.relocateRelative s.1 a >>= fun m => pure (m, s.2 + 1) := by
  unfold counted run
  rw [List.foldlM_cons]
  cases o.relocateRelative s.1 a with
  | error e => rfl
  | ok m => rfl

theorem counted_nil (s : Bytes × Nat) : o.counted [] s = .ok s := rfl

theorem bitLoop_eq {room bits position : Nat} (hbits : bits < 2 ^ room)
    (hroom : position + 8 * room < 2 ^ 64) (s : Bytes × Nat) :
    o.bitLoop room bits position s = o.counted (covered room bits position) s := by
  induction room generalizing bits position s with
  | zero => rfl
  | succ room ih =>
    have hnext : add64 position 8 = .ok (position + 8) := if_pos (by omega)
    have hstep : ∀ s, o.bitLoop room (bits / 2) (position + 8) s =
        o.counted (covered room (bits / 2) (position + 8)) s :=
      ih (by rw [Nat.pow_succ] at hbits; omega) (by omega)
    rw [bitLoop]
    by_cases hzero : bits = 0
    · rw [if_pos hzero, hzero, covered_zero, counted_nil]
    rw [if_neg hzero, covered_succ, counted_append]
    by_cases hbit : bits % 2 = 0
    · rw [if_neg (not_not.mpr hbit), if_neg (not_not.mpr hbit), counted_nil, hnext]
      exact hstep _
    rw [if_pos hbit, if_pos hbit, counted_one]
    cases o.relocateRelative s.1 position with
    | error e => rfl
    | ok m =>
      change (add64 position 8 >>= fun position => o.bitLoop room (bits / 2) position _) = _
      rw [hnext]
      exact hstep _

theorem relrLoop_eq {cursor : Option Nat} {words addresses : List Nat}
    (h : Encodes cursor words addresses) {c : Nat} (hcursor : ∀ c' ∈ cursor, c = c')
    (hreaches : Reaches c words) (hword : ∀ a ∈ addresses, a + 8 < 2 ^ 64) (s : Bytes × Nat) :
    o.relrLoop words c s = o.counted addresses s := by
  induction h generalizing c s with
  | nil => rfl
  | @address _ words addresses a heven _ ih =>
    rw [Reaches, if_pos heven] at hreaches
    have hnext : add64 a 8 = .ok (a + 8) := if_pos (hword a List.mem_cons_self)
    have hrest := ih (c := a + 8) (by simp) hreaches fun b hb => hword b (List.mem_cons_of_mem a hb)
    rw [relrLoop, if_pos heven, ← List.singleton_append, counted_append, counted_one]
    cases o.relocateRelative s.1 a with
    | error e => rfl
    | ok m =>
      change (add64 a 8 >>= fun cursor => o.relrLoop words cursor _) = _
      rw [hnext]
      exact hrest _
  | @bitmap cursor words addresses bits hbits _ ih =>
    obtain rfl : c = cursor := hcursor cursor rfl
    have hodd : ¬ (2 * bits + 1) % 2 = 0 := by omega
    rw [Reaches, if_neg hodd] at hreaches
    have hnext : add64 c (63 * 8) = .ok (c + 63 * 8) := if_pos hreaches.1
    have hrest := ih (c := c + 63 * 8) (by simp) hreaches.2
      fun b hb => hword b (List.mem_append_right _ hb)
    have hhalf : (2 * bits + 1) / 2 = bits := by omega
    rw [relrLoop, if_neg hodd, hhalf, bitLoop_eq hbits (by omega), counted_append]
    apply bind_congr
    intro s
    rw [hnext]
    exact hrest s

/-! ## What a run leaves -/

/-- Where the word at a link-time address lies. -/
def target (o : Image) (address : Nat) : Nat := o.allocation + (address - o.spanStart)

/-- The word at a link-time address. -/
def word (o : Image) (m : Bytes) (address : Nat) : Nat := load m (o.target address)

/-- The words of the image at these addresses do not overlap. -/
structure Slots (o : Image) (addresses : List Nat) : Prop where
  apart : addresses.Pairwise fun a b => a + 8 ≤ b
  inside : ∀ a ∈ addresses, o.spanStart ≤ a ∧ a + 8 ≤ o.spanEnd

/-- The relocated word is a 64-bit value. -/
def InRange (o : Image) (m : Bytes) (a : Nat) : Prop :=
  0 ≤ o.loadBias + o.word m a ∧ o.loadBias + o.word m a < 2 ^ 64

/-- The load bias was added to the words at the addresses, and nothing else has changed. -/
structure Adjusted (o : Image) (m : Bytes) (addresses : List Nat) (m' : Bytes) : Prop where
  added : ∀ a ∈ addresses, (o.word m' a : Int) = o.loadBias + o.word m a
  kept : ∀ byte, (∀ a ∈ addresses, byte < o.target a ∨ o.target a + 8 ≤ byte) → m' byte = m byte

variable {addresses : List Nat}

theorem biased_eq (value : Int) : o.biased value =
    if 0 ≤ o.loadBias + value ∧ o.loadBias + value < 2 ^ 64 then .ok (o.loadBias + value).toNat
    else .error .addressOverflow := by
  unfold biased
  split_ifs with hwide <;> first | rfl | omega

theorem InRange.biased (h : o.InRange m a) :
    o.biased (o.word m a) = .ok (o.loadBias + o.word m a).toNat := (biased_eq _).trans (if_pos h)

theorem biased_error (h : ¬ o.InRange m a) : o.biased (o.word m a) = .error .addressOverflow :=
  (biased_eq _).trans (if_neg h)

section

variable (h : o.Slots (a :: addresses))
include h

theorem Slots.tail : o.Slots addresses where
  apart := (List.pairwise_cons.mp h.apart).2
  inside := fun b hb => h.inside b (List.mem_cons_of_mem a hb)

theorem Slots.resolve : o.resolveAddress a = .ok (o.target a) := by
  obtain ⟨hstart, hend⟩ := h.inside a List.mem_cons_self
  have hplaced := o.placed
  have hvalue : o.loadBias + a = (o.target a : Int) := by
    unfold loadBias target
    omega
  have hlt : o.target a < 2 ^ 64 := by
    unfold target
    omega
  unfold resolveAddress
  rw [biased_eq, hvalue, if_pos ⟨Int.natCast_nonneg _, by exact_mod_cast hlt⟩, Int.toNat_natCast]

theorem Slots.disjoint (hb : b ∈ addresses) : o.target a + 8 ≤ o.target b := by
  have hapart := (List.pairwise_cons.mp h.apart).1 b hb
  have hstart := (h.inside a List.mem_cons_self).1
  unfold target
  omega

theorem Slots.word_store (hb : b ∈ addresses) (value : Nat) :
    o.word (store m (o.target a) value) b = o.word m b :=
  load_store_of_disjoint (.inl (h.disjoint hb))

theorem run_cons : o.run (a :: addresses) m =
    o.biased (o.word m a) >>= fun value => o.run addresses (store m (o.target a) value) := by
  unfold run
  rw [List.foldlM_cons, relocateRelative, h.resolve]
  change (o.biased (o.word m a) >>= fun value => pure (store m (o.target a) value)) >>= _ = _
  rw [bind_assoc]
  simp only [pure_bind]

theorem Adjusted.cons (hrange : o.InRange m a)
    (hrest : o.Adjusted (store m (o.target a) (o.loadBias + o.word m a).toNat) addresses m') :
    o.Adjusted m (a :: addresses) m' where
  added := by
    intro b hb
    rcases List.mem_cons.mp hb with rfl | hb
    · have hword : o.word m' b = (o.loadBias + o.word m b).toNat := by
        have hkept : o.word m' b = o.word (store m (o.target b) _) b :=
          load_congr fun i hi => hrest.kept _ fun c hc =>
            .inl (Nat.lt_of_lt_of_le (Nat.add_lt_add_left hi _) (h.disjoint hc))
        rw [hkept]
        exact load_store (by have := hrange.1; have := hrange.2; omega)
      rw [hword, Int.toNat_of_nonneg hrange.1]
    · rw [hrest.added b hb, h.word_store hb]
  kept := by
    intro byte hbyte
    rw [hrest.kept byte fun b hb => hbyte b (List.mem_cons_of_mem a hb)]
    exact store_of_outside (hbyte a List.mem_cons_self)

end

theorem run_ok (h : o.Slots addresses) (hrange : ∀ a ∈ addresses, o.InRange m a) :
    ∃ m', o.run addresses m = .ok m' ∧ o.Adjusted m addresses m' := by
  induction addresses generalizing m with
  | nil => exact ⟨m, rfl, ⟨by simp, fun _ _ => rfl⟩⟩
  | cons a addresses ih =>
    have hhead := hrange a List.mem_cons_self
    obtain ⟨m', hrun, hadjusted⟩ := ih (m := store m (o.target a) (o.loadBias + o.word m a).toNat)
      h.tail fun b hb => by
        unfold InRange
        rw [h.word_store hb]
        exact hrange b (List.mem_cons_of_mem a hb)
    refine ⟨m', ?_, hadjusted.cons h hhead⟩
    rw [run_cons h, hhead.biased]
    exact hrun

theorem run_error (h : o.Slots addresses) (hrange : ¬ ∀ a ∈ addresses, o.InRange m a) :
    o.run addresses m = .error .addressOverflow := by
  induction addresses generalizing m with
  | nil => exact absurd (by simp) hrange
  | cons a addresses ih =>
    rw [run_cons h]
    by_cases hhead : o.InRange m a
    · rw [hhead.biased]
      apply ih h.tail
      intro hrest
      apply hrange
      intro b hb
      rcases List.mem_cons.mp hb with rfl | hb
      · exact hhead
      · have hword := hrest b hb
        unfold InRange at hword
        rwa [h.word_store hb] at hword
    · rw [biased_error hhead]
      rfl

theorem run_eq_relative (h : o.Slots addresses) : o.run addresses m =
    (addresses.map fun a => (a, (o.word m a : Int))).foldlM o.applyRelative m := by
  suffices hgeneral : ∀ m₀, (∀ a ∈ addresses, o.word m a = o.word m₀ a) → o.run addresses m =
      (addresses.map fun a => (a, (o.word m₀ a : Int))).foldlM o.applyRelative m from
    hgeneral m fun _ _ => rfl
  intro m₀ hwords
  induction addresses generalizing m with
  | nil => rfl
  | cons a addresses ih =>
    rw [run_cons h, List.map_cons, List.foldlM_cons, applyRelative, h.resolve,
      hwords a List.mem_cons_self]
    change _ = (o.biased (o.word m₀ a) >>= fun value => pure (store m (o.target a) value)) >>= _
    rw [bind_assoc]
    simp only [pure_bind]
    congr 1
    funext value
    apply ih h.tail
    intro b hb
    rw [h.word_store hb]
    exact hwords b (List.mem_cons_of_mem a hb)

/-! ## `apply_relr` -/

theorem Slots.of_aligned (hsorted : addresses.Pairwise (· < ·)) (haligned : ∀ a ∈ addresses, 8 ∣ a)
    (hinside : ∀ a ∈ addresses, o.spanStart ≤ a ∧ a + 8 ≤ o.spanEnd) : o.Slots addresses where
  apart := by
    refine hsorted.imp_of_mem fun ha hb hlt => ?_
    have hleft := haligned _ ha
    have hright := haligned _ hb
    omega
  inside := hinside

theorem applyRelr_eq {words : List Nat} (hwords : o.relrWords = .ok words)
    (hslots : o.Slots addresses) (hencodes : Encodes none words addresses)
    (hreaches : Reaches 0 words) : o.applyRelr m = o.counted addresses (m, 0) := by
  unfold applyRelr
  rw [hwords]
  exact relrLoop_eq hencodes (by simp) hreaches
    (fun a ha => Nat.lt_of_le_of_lt (hslots.inside a ha).2 o.spanEnd_lt) (m, 0)

/-- An image of two pages at the end of the address space of the file. -/
def high (words : List Nat) : Image where
  bytes := words.flatMap (leBytes 8)
  relr := some ⟨0, some (8 * words.length), some 8⟩
  spanStart := 2 ^ 64 - 12288
  spanEnd := 2 ^ 64 - 4096
  allocation := 65536
  spanEnd_lt := by decide
  placed := by decide

/-- Its first word holds its own address. -/
def highMemory : Bytes := store (fun _ => 0) 65536 (2 ^ 64 - 12288)

theorem high_slots : ∀ a ∈ [2 ^ 64 - 12288], 2 ^ 64 - 12288 ≤ a ∧ a + 8 ≤ 2 ^ 64 - 4096 := by
  decide

theorem high_inRange (words : List Nat) :
    ∀ a ∈ [2 ^ 64 - 12288], (high words).InRange highMemory a := by
  intro a ha
  obtain rfl := List.mem_singleton.mp ha
  have hword : (high words).word highMemory (2 ^ 64 - 12288) = 2 ^ 64 - 12288 :=
    load_store (by decide)
  have hbias : (high words).loadBias = 65536 - (2 ^ 64 - 12288) := rfl
  unfold InRange
  rw [hword, hbias]
  exact ⟨by decide, by decide⟩

theorem encodes_empties (cursor n : Nat) : Encodes (some cursor) (List.replicate n 1) [] := by
  induction n generalizing cursor with
  | zero => exact .nil _
  | succ n ih => exact .bitmap 0 (by decide) (ih _)

theorem high_encodes (n : Nat) :
    Encodes none ((2 ^ 64 - 12288) :: List.replicate n 1) [2 ^ 64 - 12288] :=
  .address _ (by decide) (encodes_empties _ n)

end Image

end Kinakaze.Linker
