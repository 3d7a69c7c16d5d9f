import Kinakaze.Library.Codec
import Mathlib.Data.List.TakeWhile

/-!
# The initial stack of a hosted program

`build` lays out `argc`, the argument and environment pointers, the auxiliary vector and the
strings, as if the block were at address zero; `relocateTo` adds the base to the words that hold
pointers.  `Block.walk` reads the block as `_start` does.
-/

namespace Kinakaze.Linker.Stack

open Library

abbrev Byte := BitVec 8
abbrev Word := BitVec 64

/-! ## Building -/

def AT_NULL : Word := 0
def AT_PHDR : Word := 3
def AT_PHENT : Word := 4
def AT_PHNUM : Word := 5
def AT_PAGESZ : Word := 6
def AT_BASE : Word := 7
def AT_FLAGS : Word := 8
def AT_ENTRY : Word := 9
def AT_UID : Word := 11
def AT_EUID : Word := 12
def AT_GID : Word := 13
def AT_EGID : Word := 14
def AT_HWCAP : Word := 16
def AT_CLKTCK : Word := 17
def AT_SECURE : Word := 23
def AT_RANDOM : Word := 25
def AT_EXECFN : Word := 31

structure AuxiliaryValues where
  programHeaders : Option Word := none
  programHeaderSize : Word := 0
  programHeaderCount : Word := 0
  entry : Option Word := none
  interpreterBase : Option Word := none
  pageSize : Word := 0
  executablePath : Option (List Byte) := none

structure StackImage where
  bytes : List Byte
  stackPointerOffset : Nat
  pointerSlots : List Nat

/-- The bytes before the first NUL. -/
def cut (value : List Byte) : List Byte := value.takeWhile (· ≠ 0)

def cStringBytes (value : List Byte) : List Byte := cut value ++ [0]

/-- `alignment` is a power of two. -/
def alignUp (value alignment : Nat) : Nat := (value + alignment - 1) / alignment * alignment

/-- The auxiliary vector up to `AT_NULL`.  The source pushes 0 for the two offsets, and patches
them in later. -/
def AuxiliaryValues.entries (auxiliary : AuxiliaryValues) (random execfn : Word) :
    List (Word × Word) :=
  auxiliary.programHeaders.toList.flatMap (fun headers =>
    [(AT_PHDR, headers), (AT_PHENT, auxiliary.programHeaderSize),
      (AT_PHNUM, auxiliary.programHeaderCount)]) ++
  [(AT_PAGESZ, if auxiliary.pageSize = 0 then 4096 else auxiliary.pageSize)] ++
  auxiliary.interpreterBase.toList.map (AT_BASE, ·) ++
  auxiliary.entry.toList.map (AT_ENTRY, ·) ++
  [(AT_FLAGS, 0), (AT_SECURE, 0), (AT_UID, 0), (AT_EUID, 0), (AT_GID, 0), (AT_EGID, 0),
    (AT_CLKTCK, 100), (AT_HWCAP, 0), (AT_RANDOM, random)] ++
  auxiliary.executablePath.toList.map (fun _ => (AT_EXECFN, execfn))

def AuxiliaryValues.auxv (auxiliary : AuxiliaryValues) (random execfn : Word) :
    List (Word × Word) :=
  auxiliary.entries random execfn ++ [(AT_NULL, 0)]

/-- Append the strings to the data; their offsets, and the data. -/
def place (dataStart : Nat) (data : List Byte) : List (List Byte) → List Nat × List Byte
  | [] => ([], data)
  | string :: rest =>
    let (offsets, data') := place dataStart (data ++ string) rest
    ((dataStart + data.length) :: offsets, data')

structure Writer where
  bytes : List Byte
  cursor : Nat
  slots : List Nat

/-- `put`, which panics outside the vectors. -/
def put (value : Word) (w : Writer) : Option Writer :=
  if w.cursor + 8 ≤ w.bytes.length then
    some { w with
      bytes := w.bytes.take w.cursor ++ wordBytes value ++ w.bytes.drop (w.cursor + 8)
      cursor := w.cursor + 8 }
  else none

/-- `put`, of a word that is to be relocated. -/
def putPointer (value : Word) (w : Writer) : Option Writer :=
  put value { w with slots := w.slots ++ [w.cursor] }

def putOffset (w : Writer) (offset : Nat) : Option Writer := putPointer (.ofNat 64 offset) w

def putEntry (w : Writer) (entry : Word × Word) : Option Writer := do
  let w ← put entry.1 w
  if entry.1 = AT_RANDOM ∨ entry.1 = AT_EXECFN then putPointer entry.2 w else put entry.2 w

def build (random : Fin 16 → Byte) (arguments environment : List (List Byte))
    (auxiliary : AuxiliaryValues) : Option StackImage := do
  let argumentStrings := arguments.map cStringBytes
  let environmentStrings := environment.map cStringBytes
  let executableString := auxiliary.executablePath.map cStringBytes
  let wordCount := 1 + argumentStrings.length + 1 + environmentStrings.length + 1 +
    (auxiliary.auxv 0 0).length * 2
  let dataStart := alignUp (wordCount * 8) 16
  let (argumentOffsets, data) := place dataStart (List.ofFn random) argumentStrings
  let (environmentOffsets, data) := place dataStart data environmentStrings
  let execfnOffset := dataStart + data.length
  let data := data ++ executableString.getD []
  let w ← put (.ofNat 64 argumentStrings.length) ⟨List.replicate dataStart 0, 0, []⟩
  let w ← argumentOffsets.foldlM putOffset w
  let w ← put 0 w
  let w ← environmentOffsets.foldlM putOffset w
  let w ← put 0 w
  let w ← (auxiliary.auxv (.ofNat 64 dataStart) (.ofNat 64 execfnOffset)).foldlM putEntry w
  pure ⟨w.bytes ++ data, 0, w.slots⟩

/-- The word at `slot`, with the base added. -/
def relocateWord (base : Nat) (bytes : List Byte) (slot : Nat) : List Byte :=
  bytes.take slot ++ wordBytes (.ofNat 64 (base + ofLe ((bytes.drop slot).take 8))) ++
    bytes.drop (slot + 8)

/-! ## Walking -/

/-- Bytes at an address. -/
structure Block where
  base : Nat
  bytes : List Byte

/-- `relocate_to`, with the block then at its base. -/
def StackImage.relocateTo (image : StackImage) (base : Nat) : Block :=
  ⟨base, image.pointerSlots.foldl (relocateWord base) image.bytes⟩

namespace Block

variable (b : Block)

def word (address : Nat) : Option Word :=
  if b.base ≤ address ∧ address + 8 ≤ b.base + b.bytes.length then
    some (.ofNat 64 (ofLe ((b.bytes.drop (address - b.base)).take 8)))
  else none

/-- The bytes from an address up to a NUL. -/
def cString (address : Nat) : Option (List Byte) :=
  let bytes := b.bytes.drop (address - b.base)
  if b.base ≤ address ∧ 0 ∈ bytes then some (cut bytes) else none

/-- The pointers up to the NULL, each with its string, and the address after the NULL. -/
def strings : Nat → Nat → Option (List (Word × List Byte) × Nat)
  | 0, _ => none
  | fuel + 1, cursor => do
    let pointer ← b.word cursor
    if pointer = 0 then pure ([], cursor + 8)
    else
      let string ← b.cString pointer.toNat
      let (rest, cursor) ← strings fuel (cursor + 8)
      pure ((pointer, string) :: rest, cursor)

/-- The pairs up to `AT_NULL`. -/
def pairs : Nat → Nat → Option (List (Word × Word))
  | 0, _ => none
  | fuel + 1, cursor => do
    let tag ← b.word cursor
    let value ← b.word (cursor + 8)
    if tag = AT_NULL then pure [(tag, value)]
    else pure ((tag, value) :: (← pairs fuel (cursor + 16)))

end Block

structure Walked where
  argc : Word
  arguments : List (Word × List Byte)
  environment : List (Word × List Byte)
  auxv : List (Word × Word)

/-- `_start` reads the block from the stack pointer on; there are fewer words than bytes. -/
def Block.walk (b : Block) (stackPointer : Nat) : Option Walked := do
  let argc ← b.word stackPointer
  let (arguments, cursor) ← b.strings b.bytes.length (stackPointer + 8)
  let (environment, cursor) ← b.strings b.bytes.length cursor
  let auxv ← b.pairs b.bytes.length cursor
  pure ⟨argc, arguments, environment, auxv⟩

/-! ## What is written -/

def wordsBytes (words : List Word) : List Byte := words.flatMap wordBytes

@[simp] theorem length_wordsBytes (words : List Word) :
    (wordsBytes words).length = 8 * words.length := by
  rw [wordsBytes, length_flatMap_const length_wordBytes, Nat.mul_comm]

/-- A word, and whether it is to be relocated. -/
def write (w : Writer) (item : Bool × Word) : Option Writer :=
  if item.1 then putPointer item.2 w else put item.2 w

def slotsFrom (cursor : Nat) : List (Bool × Word) → List Nat
  | [] => []
  | item :: rest => (if item.1 then [cursor] else []) ++ slotsFrom (cursor + 8) rest

variable {front rest : List Byte} {items : List (Bool × Word)}

theorem put_append (value : Word) (slots : List Nat) (h : 8 ≤ rest.length) :
    put value ⟨front ++ rest, front.length, slots⟩ =
      some ⟨(front ++ wordBytes value) ++ rest.drop 8, (front ++ wordBytes value).length, slots⟩ := by
  unfold put
  rw [if_pos (by simpa using h)]
  simp

theorem foldlM_write (slots : List Nat) (h : 8 * items.length ≤ rest.length) :
    items.foldlM write ⟨front ++ rest, front.length, slots⟩ =
      some ⟨front ++ wordsBytes (items.map Prod.snd) ++ rest.drop (8 * items.length),
        front.length + 8 * items.length, slots ++ slotsFrom front.length items⟩ := by
  induction items generalizing front rest slots with
  | nil => simp [wordsBytes, slotsFrom]
  | cons item items ih =>
    rw [List.length_cons] at h
    have hwrite : write ⟨front ++ rest, front.length, slots⟩ item =
        some ⟨(front ++ wordBytes item.2) ++ rest.drop 8, (front ++ wordBytes item.2).length,
          slots ++ if item.1 then [front.length] else []⟩ := by
      unfold write putPointer
      split <;> simp [put_append, show 8 ≤ rest.length by omega]
    rw [List.foldlM_cons, hwrite]
    refine (ih _ (by rw [List.length_drop]; omega)).trans ?_
    simp only [wordsBytes, slotsFrom, List.map_cons, List.flatMap_cons, List.append_assoc,
      List.length_append, length_wordBytes, List.drop_drop, List.length_cons]
    rw [show 8 + 8 * items.length = 8 * (items.length + 1) by omega,
      show front.length + 8 + 8 * items.length = front.length + 8 * (items.length + 1) by omega]

/-! ## What is relocated -/

def moved (base : Nat) (item : Bool × Word) : Word :=
  if item.1 then .ofNat 64 (base + item.2.toNat) else item.2

theorem ofLe_wordBytes (value : Word) : ofLe (wordBytes value) = value.toNat :=
  ofLe_leBytes_of_lt value.isLt

theorem relocateWord_append (base : Nat) (value : Word) :
    relocateWord base (front ++ (wordBytes value ++ rest)) front.length =
      front ++ (wordBytes (.ofNat 64 (base + value.toNat)) ++ rest) := by
  unfold relocateWord
  rw [List.drop_left, List.take_left, List.take_left' (length_wordBytes value), ofLe_wordBytes,
    ← List.drop_drop, List.drop_left, List.drop_left' (length_wordBytes value), List.append_assoc]

theorem foldl_relocateWord (base : Nat) : (slotsFrom front.length items).foldl (relocateWord base)
        (front ++ (wordsBytes (items.map Prod.snd) ++ rest)) =
      front ++ (wordsBytes (items.map (moved base)) ++ rest) := by
  induction items generalizing front with
  | nil => rfl
  | cons item items ih =>
    have hnext := @ih (front ++ wordBytes (moved base item))
    obtain ⟨pointer, value⟩ := item
    simp only [wordsBytes, slotsFrom, List.map_cons, List.flatMap_cons, List.append_assoc,
      List.length_append, length_wordBytes, List.foldl_append] at hnext ⊢
    cases pointer with
    | false => exact hnext
    | true =>
      simp only [if_true, List.foldl_cons, List.foldl_nil, relocateWord_append]
      exact hnext

/-! ## What is read -/

variable {b : Block} {words : List Word} {fuel : Nat}

theorem word_eq {value : Word} (rest : List Byte)
    (h : b.bytes = wordsBytes words ++ (wordBytes value ++ rest)) :
    b.word (b.base + 8 * words.length) = some value := by
  unfold Block.word
  rw [if_pos (by simp [h]; omega), h, Nat.add_sub_cancel_left, ← length_wordsBytes, List.drop_left,
    List.take_left' (length_wordBytes value), ofLe_wordBytes, BitVec.ofNat_toNat,
    BitVec.setWidth_eq]

theorem word_cons {value : Word} {more : List Word}
    (h : b.bytes = wordsBytes (words ++ value :: more) ++ rest) :
    b.word (b.base + 8 * words.length) = some value :=
  word_eq (wordsBytes more ++ rest) (by simp [h, wordsBytes])

theorem cString_eq {value : List Byte} (h : b.bytes = front ++ (cStringBytes value ++ rest)) :
    b.cString (b.base + front.length) = some (cut value) := by
  unfold Block.cString
  rw [h, Nat.add_sub_cancel_left, List.drop_left]
  dsimp only
  have hcut : ∀ byte ∈ cut value, decide (byte ≠ 0) = true :=
    fun byte hbyte => List.mem_takeWhile_imp (p := fun byte => decide (byte ≠ 0)) hbyte
  refine (if_pos ⟨by omega, by simp [cStringBytes]⟩).trans (congrArg some ?_)
  rw [cStringBytes, List.append_assoc]
  refine (List.takeWhile_append_of_pos hcut).trans ?_
  simp

theorem strings_eq {strings : List (Word × List Byte)} {more : List Word}
    (hfuel : strings.length < fuel)
    (h : b.bytes = wordsBytes (words ++ (strings.map Prod.fst ++ 0 :: more)) ++ rest)
    (hstrings : ∀ s ∈ strings, s.1 ≠ 0 ∧ b.cString s.1.toNat = some s.2) :
    b.strings fuel (b.base + 8 * words.length) =
      some (strings, b.base + 8 * (words ++ (strings.map Prod.fst ++ [0])).length) := by
  obtain ⟨fuel, rfl⟩ : ∃ n, fuel = n + 1 := ⟨fuel - 1, by omega⟩
  induction strings generalizing words fuel with
  | nil =>
    have hword : b.word (b.base + 8 * words.length) = some 0 := word_cons h
    simp [Block.strings, hword, Nat.mul_add, Nat.add_assoc]
  | cons s strings ih =>
    obtain ⟨hne, hstring⟩ := hstrings s List.mem_cons_self
    have hword : b.word (b.base + 8 * words.length) = some s.1 := word_cons h
    obtain ⟨fuel, rfl⟩ : ∃ n, fuel = n + 1 := ⟨fuel - 1, by simp at hfuel; omega⟩
    have hrest := @ih (words ++ [s.1]) (by simpa using h)
      (fun s hs => hstrings s (List.mem_cons_of_mem _ hs)) fuel (by simpa using hfuel)
    rw [List.length_append, List.length_singleton, Nat.mul_add, Nat.mul_one, ← Nat.add_assoc]
      at hrest
    have hzero : ¬ s.1 = 0#64 := hne
    rw [Block.strings]
    simp [hword, hzero, hstring, hrest]

/-- The words of pairs. -/
def flat (entries : List (Word × Word)) : List Word := entries.flatMap fun e => [e.1, e.2]

variable {entries : List (Word × Word)}

theorem pairs_eq {last : Word} (hfuel : entries.length < fuel)
    (h : b.bytes = wordsBytes (words ++ flat (entries ++ [(AT_NULL, last)])) ++ rest)
    (hentries : ∀ e ∈ entries, e.1 ≠ AT_NULL) :
    b.pairs fuel (b.base + 8 * words.length) = some (entries ++ [(AT_NULL, last)]) := by
  obtain ⟨fuel, rfl⟩ : ∃ n, fuel = n + 1 := ⟨fuel - 1, by omega⟩
  have hnext : ∀ {words : List Word} {e : Word × Word} {more : List Word},
      b.bytes = wordsBytes (words ++ e.1 :: e.2 :: more) ++ rest →
      b.word (b.base + 8 * words.length) = some e.1 ∧
        b.word (b.base + 8 * words.length + 8) = some e.2 := by
    intro words e more h
    refine ⟨word_cons h, ?_⟩
    have hsecond := @word_cons rest b (words ++ [e.1]) e.2 more (by simpa using h)
    rwa [List.length_append, List.length_singleton, Nat.mul_add, ← Nat.add_assoc] at hsecond
  induction entries generalizing words fuel with
  | nil =>
    obtain ⟨htag, hvalue⟩ := hnext (e := (AT_NULL, last)) h
    simp [Block.pairs, htag, hvalue]
  | cons e entries ih =>
    obtain ⟨htag, hvalue⟩ := hnext (e := e) h
    obtain ⟨fuel, rfl⟩ : ∃ n, fuel = n + 1 := ⟨fuel - 1, by simp at hfuel; omega⟩
    have hrest := @ih (words ++ [e.1, e.2]) (by simpa [flat] using h)
      (fun e he => hentries e (List.mem_cons_of_mem _ he)) fuel (by simpa using hfuel)
    rw [List.length_append, Nat.mul_add, ← Nat.add_assoc] at hrest
    rw [Block.pairs]
    simp [htag, hvalue, hentries e List.mem_cons_self, show b.pairs (fuel + 1)
      (b.base + 8 * words.length + 16) = _ from hrest]

/-! ## Strings -/

/-- Ranges, each a start and a length, one behind the other from `lo` to `hi`. -/
def Apart : Nat → List (Nat × Nat) → Nat → Prop
  | lo, [], hi => lo ≤ hi
  | lo, range :: rest, hi => lo ≤ range.1 ∧ Apart (range.1 + range.2) rest hi

/-- The bytes of strings, with their NULs. -/
def spans (strings : List (Word × List Byte)) : List (Nat × Nat) :=
  strings.map fun s => (s.1.toNat, s.2.length + 1)

def stored (strings : List (List Byte)) : List Byte := (strings.map cStringBytes).flatten

/-- Where strings begin that follow one another. -/
def starts (cursor : Nat) : List (List Byte) → List Nat
  | [] => []
  | string :: rest => cursor :: starts (cursor + string.length) rest

theorem place_eq (dataStart : Nat) (data : List Byte) (strings : List (List Byte)) :
    place dataStart data strings =
      (starts (dataStart + data.length) strings, data ++ strings.flatten) := by
  induction strings generalizing data with
  | nil => simp [place, starts]
  | cons string rest ih => simp [place, starts, ih, Nat.add_assoc]

/-- Pointers to strings that follow one another, and what they point to. -/
def pieces (address : Nat) : List (List Byte) → List (Word × List Byte)
  | [] => []
  | string :: rest =>
    (.ofNat 64 address, cut string) :: pieces (address + (cStringBytes string).length) rest

theorem pieces_append (address : Nat) (strings more : List (List Byte)) :
    pieces address (strings ++ more) =
      pieces address strings ++ pieces (address + (stored strings).length) more := by
  induction strings generalizing address with
  | nil => rfl
  | cons string rest ih => simp [pieces, ih, stored, Nat.add_assoc]

theorem pieces_snd (address : Nat) (strings : List (List Byte)) :
    (pieces address strings).map Prod.snd = strings.map cut := by
  induction strings generalizing address with
  | nil => rfl
  | cons string rest ih => simp [pieces, ih]

theorem moved_pointer (base offset : Nat) :
    moved base (true, .ofNat 64 offset) = .ofNat 64 (base + offset) := by
  rw [moved, if_pos rfl, BitVec.ofNat_add, BitVec.ofNat_toNat, BitVec.setWidth_eq, BitVec.ofNat_add]

def pointerItem (offset : Nat) : Bool × Word := (true, .ofNat 64 offset)

theorem pieces_fst (base cursor : Nat) (strings : List (List Byte)) :
    ((starts cursor (strings.map cStringBytes)).map pointerItem).map (moved base) =
      (pieces (base + cursor) strings).map Prod.fst := by
  induction strings generalizing cursor with
  | nil => rfl
  | cons string rest ih =>
    simp only [List.map_cons, starts, pieces, pointerItem, moved_pointer, ih, Nat.add_assoc]

theorem pieces_read {strings : List (List Byte)} (hfit : b.base + b.bytes.length ≤ 2 ^ 64)
    (hpos : 0 < front.length) (h : b.bytes = front ++ (stored strings ++ rest)) :
    (∀ s ∈ pieces (b.base + front.length) strings, s.1 ≠ 0 ∧ b.cString s.1.toNat = some s.2) ∧
      Apart (b.base + front.length) (spans (pieces (b.base + front.length) strings))
        (b.base + front.length + (stored strings).length) := by
  induction strings generalizing front with
  | nil => exact ⟨fun s hs => absurd hs List.not_mem_nil, Nat.le_refl _⟩
  | cons string strings ih =>
    have h' : b.bytes = front ++ (cStringBytes string ++ (stored strings ++ rest)) := by
      simpa [stored] using h
    have haddress : (BitVec.ofNat 64 (b.base + front.length)).toNat = b.base + front.length := by
      rw [BitVec.toNat_ofNat, Nat.mod_eq_of_lt]
      simp [h', cStringBytes] at hfit
      omega
    obtain ⟨hread, hapart⟩ := @ih (front ++ cStringBytes string) (by simp; omega) (by simpa using h')
    rw [List.length_append, ← Nat.add_assoc] at hread hapart
    constructor
    · intro s hs
      rcases List.mem_cons.mp hs with rfl | hs
      · refine ⟨fun hzero => ?_, ?_⟩
        · have hnull : b.base + front.length = 0 := haddress.symm.trans (congrArg BitVec.toNat hzero)
          omega
        · rw [haddress]
          exact cString_eq h'
      · exact hread s hs
    · refine ⟨haddress.ge, ?_⟩
      have hone : (cut string).length + 1 = (cStringBytes string).length := by simp [cStringBytes]
      have hlength : (stored (string :: strings)).length =
          (cStringBytes string).length + (stored strings).length := List.length_append
      show Apart (BitVec.toNat _ + ((cut string).length + 1)) _ _
      rw [haddress, hone, hlength, ← Nat.add_assoc]
      exact hapart

/-! ## The block -/

def entryItems (e : Word × Word) : List (Bool × Word) :=
  [(false, e.1), (decide (e.1 = AT_RANDOM ∨ e.1 = AT_EXECFN), e.2)]

/-- The words of the vectors. -/
def vectors (argc : Nat) (arguments environment : List Nat) (entries : List (Word × Word)) :
    List (Bool × Word) :=
  (false, .ofNat 64 argc) :: (arguments.map pointerItem ++ (false, 0) ::
    (environment.map pointerItem ++ (false, 0) :: entries.flatMap entryItems))

theorem foldlM_entries (entries : List (Word × Word)) (w : Writer) :
    (entries.flatMap entryItems).foldlM write w = entries.foldlM putEntry w := by
  induction entries generalizing w with
  | nil => rfl
  | cons e entries ih =>
    have hentry : (entryItems e).foldlM write w = putEntry w e := by
      simp [entryItems, write, putEntry]
    rw [List.flatMap_cons, List.foldlM_append, List.foldlM_cons, hentry]
    exact congrArg _ (funext ih)

theorem foldlM_vectors (argc : Nat) (arguments environment : List Nat)
    (entries : List (Word × Word)) (w : Writer) :
    (vectors argc arguments environment entries).foldlM write w = (do
      let w ← put (.ofNat 64 argc) w
      let w ← arguments.foldlM putOffset w
      let w ← put 0 w
      let w ← environment.foldlM putOffset w
      let w ← put 0 w
      entries.foldlM putEntry w) := by
  simp only [vectors, List.foldlM_cons, List.foldlM_append, List.foldlM_map, foldlM_entries]
  rfl

variable (auxiliary : AuxiliaryValues)

/-- An entry after `base` was added to the offsets. -/
def relocated (base : Nat) (e : Word × Word) : Word × Word :=
  (e.1, moved base (decide (e.1 = AT_RANDOM ∨ e.1 = AT_EXECFN), e.2))

theorem map_moved_entryItems (base : Nat) (entries : List (Word × Word)) :
    (entries.flatMap entryItems).map (moved base) = flat (entries.map (relocated base)) := by
  rw [List.map_flatMap, flat, List.flatMap_map]
  rfl

theorem AuxiliaryValues.map_relocated (base : Nat) (randomAt execfn : Word) :
    (auxiliary.auxv randomAt execfn).map (relocated base) =
      auxiliary.auxv (moved base (true, randomAt)) (moved base (true, execfn)) := by
  obtain ⟨headers, size, count, entry, interpreter, page, path⟩ := auxiliary
  simp only [AuxiliaryValues.auxv, AuxiliaryValues.entries, List.map_append]
  refine congrArg₂ _ (congrArg₂ _ (congrArg₂ _ (congrArg₂ _ (congrArg₂ _ (congrArg₂ _ ?_ rfl) ?_)
    ?_) rfl) ?_) rfl
  · cases headers <;> rfl
  · cases interpreter <;> rfl
  · cases entry <;> rfl
  · cases path <;> rfl

theorem AuxiliaryValues.nodup_tags (randomAt execfn : Word) :
    ((auxiliary.auxv randomAt execfn).map Prod.fst).Nodup := by
  obtain ⟨headers, size, count, entry, interpreter, page, path⟩ := auxiliary
  have htags : ([AT_PHDR, AT_PHENT, AT_PHNUM] ++ [AT_PAGESZ] ++ [AT_BASE] ++ [AT_ENTRY] ++
      [AT_FLAGS, AT_SECURE, AT_UID, AT_EUID, AT_GID, AT_EGID, AT_CLKTCK, AT_HWCAP, AT_RANDOM] ++
      [AT_EXECFN] ++ [AT_NULL]).Nodup := by
    decide
  refine htags.sublist ?_
  simp only [AuxiliaryValues.auxv, AuxiliaryValues.entries, List.map_append]
  refine .append (.append (.append (.append (.append (.append ?_ (.refl _)) ?_) ?_) (.refl _)) ?_)
    (.refl _)
  · cases headers <;> simp
  · cases interpreter <;> simp
  · cases entry <;> simp
  · cases path <;> simp

/-- Only `AT_RANDOM` and `AT_EXECFN` are relocated, and no tag comes twice. -/
theorem AuxiliaryValues.auxv_spec (base : Nat) (randomAt execfn : Word) :
    ((auxiliary.auxv randomAt execfn).flatMap entryItems).map (moved base) =
        flat (auxiliary.auxv (moved base (true, randomAt)) (moved base (true, execfn))) ∧
      ((auxiliary.auxv randomAt execfn).map Prod.fst).Nodup := by
  rw [map_moved_entryItems, auxiliary.map_relocated]
  exact ⟨rfl, auxiliary.nodup_tags randomAt execfn⟩

theorem AuxiliaryValues.not_null (randomAt execfn : Word) :
    ∀ e ∈ auxiliary.entries randomAt execfn, e.1 ≠ AT_NULL := by
  have hnodup := (auxiliary.auxv_spec 0 randomAt execfn).2
  rw [AuxiliaryValues.auxv, List.map_append, List.nodup_append] at hnodup
  exact fun e he => hnodup.2.2 _ (List.mem_map_of_mem he) _ (by simp)

theorem AuxiliaryValues.length_auxv (randomAt execfn : Word) :
    (auxiliary.auxv randomAt execfn).length = (auxiliary.auxv 0 0).length := by
  simp [AuxiliaryValues.auxv, AuxiliaryValues.entries]

theorem length_starts (cursor : Nat) (strings : List (List Byte)) :
    (starts cursor strings).length = strings.length := by
  induction strings generalizing cursor with
  | nil => rfl
  | cons string rest ih => simp [starts, ih]

theorem length_flat (entries : List (Word × Word)) : (flat entries).length = entries.length * 2 := by
  have hpair : ∀ e : Word × Word, [e.1, e.2].length = 2 := fun _ => rfl
  exact length_flatMap_const hpair entries

theorem walk_eq {argc : Word} {args env : List (Word × List Byte)}
    (h : b.bytes = wordsBytes (argc :: (args.map Prod.fst ++ 0 :: (env.map Prod.fst ++ 0 ::
      flat (entries ++ [(AT_NULL, 0)])))) ++ rest) (hentries : ∀ e ∈ entries, e.1 ≠ AT_NULL)
    (hread : ∀ s ∈ args ++ env, s.1 ≠ 0 ∧ b.cString s.1.toNat = some s.2) :
    b.walk b.base = some ⟨argc, args, env, entries ++ [(AT_NULL, 0)]⟩ := by
  have hlength := congrArg List.length h
  simp only [List.length_append, length_wordsBytes, List.length_cons, List.length_map, length_flat,
    List.length_nil] at hlength
  have hargc : b.word b.base = some argc := @word_cons rest b [] argc _ h
  have hargs := @strings_eq rest b [argc] b.bytes.length args _ (by omega) h
    fun s hs => hread s (List.mem_append_left _ hs)
  have henv := @strings_eq rest b ([argc] ++ (args.map Prod.fst ++ [0])) b.bytes.length env _
    (by omega) (by simpa using h) fun s hs => hread s (List.mem_append_right _ hs)
  have hpairs := @pairs_eq rest b
    ([argc] ++ (args.map Prod.fst ++ [0]) ++ (env.map Prod.fst ++ [0])) b.bytes.length entries 0
    (by omega) (by simpa using h) hentries
  rw [List.length_singleton, Nat.mul_one] at hargs
  simp only [Block.walk, hargc, hargs, henv, hpairs, Option.bind_eq_bind, Option.bind_some]
  rfl

def Block.read (b : Block) (address count : Nat) : List Byte :=
  (b.bytes.drop (address - b.base)).take count

/-- What the block is built of. -/
structure Contents where
  arguments : List (List Byte)
  environment : List (List Byte)
  auxiliary : AuxiliaryValues

namespace Contents

variable (random : Fin 16 → Byte) (c : Contents)

def strings : List (List Byte) :=
  c.arguments ++ (c.environment ++ c.auxiliary.executablePath.toList)

/-- The length of the vectors. -/
def wordCount : Nat :=
  1 + c.arguments.length + 1 + c.environment.length + 1 + (c.auxiliary.auxv 0 0).length * 2

def dataStart : Nat := alignUp (c.wordCount * 8) 16

theorem wordCount_le : 8 * c.wordCount ≤ c.dataStart := by
  unfold dataStart alignUp
  omega

/-- What `build` writes to the vectors. -/
def written : List (Bool × Word) :=
  let data := c.dataStart + 16
  vectors c.arguments.length (starts data (c.arguments.map cStringBytes))
    (starts (data + (stored c.arguments).length) (c.environment.map cStringBytes))
    (c.auxiliary.auxv (.ofNat 64 c.dataStart)
      (.ofNat 64 (data + (stored c.arguments).length + (stored c.environment).length)))

theorem length_written : c.written.length = c.wordCount := by
  have hentries : ∀ entries : List (Word × Word),
      (entries.flatMap entryItems).length = entries.length * 2 :=
    length_flatMap_const fun _ => rfl
  simp only [written, vectors, wordCount, List.length_cons, List.length_append, List.length_map,
    length_starts, hentries, AuxiliaryValues.length_auxv]
  omega

/-- What follows the vectors. -/
def tail : List Byte :=
  List.replicate (c.dataStart - 8 * c.wordCount) 0 ++ (List.ofFn random ++ stored c.strings)

def image : StackImage :=
  ⟨wordsBytes (c.written.map Prod.snd) ++ c.tail random, 0, slotsFrom 0 c.written⟩

theorem build_eq : build random c.arguments c.environment c.auxiliary = some (c.image random) := by
  have hpath : (c.auxiliary.executablePath.map cStringBytes).getD [] =
      stored c.auxiliary.executablePath.toList := by
    cases c.auxiliary.executablePath <;> simp [stored]
  have hbuild : build random c.arguments c.environment c.auxiliary =
      c.written.foldlM write ⟨[] ++ List.replicate c.dataStart 0, ([] : List Byte).length, []⟩ >>=
      fun w => pure ⟨w.bytes ++ (List.ofFn random ++ stored c.strings), 0, w.slots⟩ := by
    rw [written, foldlM_vectors]
    simp only [build, place_eq, hpath, bind_assoc, dataStart, wordCount, strings, List.length_map,
      stored, List.map_append, List.flatten_append, List.length_append, List.length_ofFn,
      Nat.add_assoc, List.append_assoc]
    rfl
  have hle := c.wordCount_le
  rw [hbuild, foldlM_write [] (by rw [length_written, List.length_replicate]; exact hle)]
  simp [image, tail, length_written]

/-- The walk recovers what the block was built of: each string up to its first NUL, each tag once,
and the pointers lead to ranges of the block that do not overlap, all behind the vectors. -/
structure Recovers (b : Block) (w : Walked) : Prop where
  argc : w.argc.toNat = c.arguments.length
  arguments : w.arguments.map Prod.snd = c.arguments.map cut
  environment : w.environment.map Prod.snd = c.environment.map cut
  tags : (w.auxv.map Prod.fst).Nodup
  auxv : ∃ randomAt execfn : Word, w.auxv = c.auxiliary.auxv randomAt execfn ∧
    b.read randomAt.toNat 16 = List.ofFn random ∧
    (∀ path ∈ c.auxiliary.executablePath, b.cString execfn.toNat = some (cut path)) ∧
    Apart (b.base + 8 * (3 + w.arguments.length + w.environment.length + 2 * w.auxv.length))
      ((randomAt.toNat, 16) :: spans (w.arguments ++ (w.environment ++
        c.auxiliary.executablePath.toList.map fun path => (execfn, cut path))))
      (b.base + b.bytes.length)

theorem recovers (hbytes : b.bytes = wordsBytes (c.written.map (moved b.base)) ++ c.tail random)
    (hfit : b.base + b.bytes.length ≤ 2 ^ 64) :
    ∃ w, b.walk b.base = some w ∧ Recovers random c b w := by
  have hle := c.wordCount_le
  have hlength := congrArg List.length hbytes
  simp only [tail, List.length_append, length_wordsBytes, List.length_map, length_written,
    List.length_replicate, List.length_ofFn] at hlength
  obtain ⟨start, hstart⟩ : ∃ n, n = c.dataStart := ⟨_, rfl⟩
  have hfront : (wordsBytes (c.written.map (moved b.base)) ++
      (List.replicate (start - 8 * c.wordCount) 0 ++ List.ofFn random)).length = start + 16 := by
    simp [length_written]
    omega
  have hread := @pieces_read _ [] b c.strings hfit (by rw [hfront]; omega)
    (by rw [hbytes, hstart]; simp [tail])
  have hend : b.base + (start + 16) + (stored c.strings).length = b.base + b.bytes.length := by
    omega
  have hexec : ∀ address, pieces address c.auxiliary.executablePath.toList =
      c.auxiliary.executablePath.toList.map fun path => (BitVec.ofNat 64 address, cut path) := by
    cases c.auxiliary.executablePath <;> exact fun _ => rfl
  rw [hfront, hend, strings, pieces_append, pieces_append, hexec] at hread
  have hrandom : (b.bytes.drop start).take 16 = List.ofFn random := by
    rw [hbytes, tail, ← hstart, ← List.append_assoc,
      List.drop_left' (by simp [length_written]; omega), List.take_left' (List.length_ofFn ..)]
  obtain ⟨execfn, hexecfn⟩ : ∃ n, n =
      b.base + (start + 16) + (stored c.arguments).length + (stored c.environment).length := ⟨_, rfl⟩
  have hvectors : c.written.map (moved b.base) = .ofNat 64 c.arguments.length ::
      ((pieces (b.base + (start + 16)) c.arguments).map Prod.fst ++ 0 ::
        ((pieces (b.base + (start + 16) + (stored c.arguments).length) c.environment).map Prod.fst ++
          0 :: flat (c.auxiliary.auxv (.ofNat 64 (b.base + start)) (.ofNat 64 execfn)))) := by
    simp only [written, vectors, List.map_cons, List.map_append, pieces_fst, ← hstart, hexecfn,
      (c.auxiliary.auxv_spec b.base _ _).1, moved_pointer, Nat.add_assoc]
    rfl
  rw [hvectors] at hbytes
  refine ⟨_, walk_eq hbytes (c.auxiliary.not_null _ _) fun s hs => hread.1 s ?_, ?_⟩
  · rw [← List.append_assoc]
    exact List.mem_append_left _ hs
  have hat : (BitVec.ofNat 64 (b.base + start)).toNat = b.base + start := by
    rw [BitVec.toNat_ofNat, Nat.mod_eq_of_lt]
    omega
  have hcount : ∀ address strings, (pieces address strings).length = strings.length :=
    fun address strings => by simpa using congrArg List.length (pieces_snd address strings)
  have hentries := c.auxiliary.length_auxv (.ofNat 64 (b.base + start)) (.ofNat 64 execfn)
  unfold wordCount at hle hlength
  refine ⟨?_, pieces_snd .., pieces_snd .., (c.auxiliary.auxv_spec 0 _ _).2, _, _, rfl, ?_, ?_, ?_, ?_⟩
  · rw [BitVec.toNat_ofNat, Nat.mod_eq_of_lt]
    omega
  · rw [Block.read, hat, Nat.add_sub_cancel_left, hrandom]
  · intro path hpath
    exact (hread.1 (.ofNat 64 execfn, cut path) (List.mem_append_right _ (List.mem_append_right _
      (hexecfn ▸ List.mem_map_of_mem (Option.mem_toList.mpr hpath))))).2
  · unfold AuxiliaryValues.auxv at hentries hle
    simp only [hat, hcount, hentries]
    omega
  · rw [hat, hexecfn]
    exact hread.2

theorem image_recovers (base : Nat) (hfit : base + (c.image random).bytes.length ≤ 2 ^ 64) :
    ∃ w, ((c.image random).relocateTo base).walk base = some w ∧
      Recovers random c ((c.image random).relocateTo base) w := by
  have hmoved := @foldl_relocateWord [] (c.tail random) c.written base
  refine @recovers (StackImage.relocateTo _ base) _ _ hmoved ?_
  exact (congrArg (base + ·.length) hmoved).trans_le (by simpa [image] using hfit)

/-- Walking the block at its base recovers what it was built of, and the stack pointer is aligned
where the base is. -/
theorem build_walks (base : Nat) : ∃ image,
    build random c.arguments c.environment c.auxiliary = some image ∧
    (16 ∣ base → 16 ∣ base + image.stackPointerOffset) ∧
    (base + image.bytes.length ≤ 2 ^ 64 → ∃ w,
      (image.relocateTo base).walk (base + image.stackPointerOffset) = some w ∧
      Recovers random c (image.relocateTo base) w) :=
  ⟨_, c.build_eq random, id, c.image_recovers random base⟩

/-- A page size of 0 stands for 4096. -/
theorem page_size_replaced : ∃ image w, build (fun _ => 0) [] [] {} = some image ∧
    (image.relocateTo 4096).walk 4096 = some w ∧
    (AT_PAGESZ, ({} : AuxiliaryValues).pageSize) ∉ w.auxv := by
  obtain ⟨w, hwalk, hrecovers⟩ := image_recovers (fun _ => 0) ⟨[], [], {}⟩ 4096 (by decide +kernel)
  refine ⟨_, w, build_eq _ ⟨[], [], {}⟩, hwalk, ?_⟩
  obtain ⟨randomAt, execfn, hauxv, -⟩ := hrecovers.auxv
  rw [hauxv]
  simp [AuxiliaryValues.auxv, AuxiliaryValues.entries, AT_NULL, AT_PAGESZ, AT_FLAGS, AT_UID,
    AT_EUID, AT_GID, AT_EGID, AT_HWCAP, AT_CLKTCK, AT_SECURE, AT_RANDOM]

end Contents

end Kinakaze.Linker.Stack
