import Kinakaze.Library.LittleEndian
import Kinakaze.Library.OrderedTable

/-!
# Reading back what was written

A reader takes bytes from the front of a stream and fails or gives a value.
`Reads p bytes a` says that `p` takes exactly `bytes` and gives `a`, whatever follows;
the rules below follow the shape of a reader, so that a record's round trip is one
`bind` for each field.
-/

namespace Kinakaze.Library

open Std

/-- A reader of a stream of bytes. -/
abbrev Parser (ε α : Type) := StateT (List (BitVec 8)) (Except ε) α

/-- The bytes of a machine word. -/
def wordBytes (value : BitVec 64) : List (BitVec 8) := leBytes 8 value.toNat

/-- The bytes of a number that fits a machine word. -/
def numberBytes (value : Nat) : List (BitVec 8) := wordBytes (.ofNat 64 value)

/-- The bytes of a shorter word. -/
def shortBytes {width : Nat} (value : BitVec width) : List (BitVec 8) :=
  wordBytes (value.setWidth 64)

def flagBytes (value : Bool) : List (BitVec 8) := wordBytes (if value then 1 else 0)

/-- A row of bytes behind its length. -/
def countedBytes (value : List (BitVec 8)) : List (BitVec 8) :=
  numberBytes value.length ++ value

@[simp] theorem length_wordBytes (value : BitVec 64) : (wordBytes value).length = 8 :=
  length_leBytes 8 _

@[simp] theorem length_numberBytes (value : Nat) : (numberBytes value).length = 8 :=
  length_wordBytes _

@[simp] theorem length_shortBytes {width : Nat} (value : BitVec width) :
    (shortBytes value).length = 8 :=
  length_wordBytes _

@[simp] theorem length_flagBytes (value : Bool) : (flagBytes value).length = 8 :=
  length_wordBytes _

@[simp] theorem length_countedBytes (value : List (BitVec 8)) :
    (countedBytes value).length = 8 + value.length := by
  rw [countedBytes, List.length_append, length_numberBytes]

/-- One item's bytes are no more than those of all. -/
theorem length_le_length_flatMap {ι : Type} {f : ι → List (BitVec 8)} {items : List ι} {item : ι}
    (h : item ∈ items) : (f item).length ≤ (items.flatMap f).length := by
  obtain ⟨front, back, rfl⟩ := List.append_of_mem h
  rw [List.flatMap_append, List.flatMap_cons, List.length_append, List.length_append]
  omega

/-- Dropping items drops their bytes. -/
theorem length_flatMap_filter_le {ι : Type} (f : ι → List (BitVec 8)) (p : ι → Bool)
    (items : List ι) : ((items.filter p).flatMap f).length ≤ (items.flatMap f).length := by
  induction items with
  | nil => exact le_rfl
  | cons item items ih =>
    rw [List.filter_cons]
    split
    · rw [List.flatMap_cons, List.flatMap_cons, List.length_append, List.length_append]
      omega
    · rw [List.flatMap_cons, List.length_append]
      omega

/-- So many items of at least so many bytes. -/
theorem mul_length_le_length_flatMap {ι : Type} {f : ι → List (BitVec 8)} {items : List ι}
    {least : Nat} (h : ∀ item ∈ items, least ≤ (f item).length) :
    items.length * least ≤ (items.flatMap f).length := by
  induction items with
  | nil => simp
  | cons item items ih =>
    have hitem := h item List.mem_cons_self
    have hrest := ih fun other hother => h other (List.mem_cons_of_mem item hother)
    rw [List.flatMap_cons, List.length_append, List.length_cons, Nat.succ_mul]
    omega

section Parsers

variable {ε α β σ : Type} (e : ε)

/-- Reads a machine word; `e` is the error of a stream that is too short. -/
def word : Parser ε (BitVec 64) := fun bytes =>
  if bytes.length < 8 then .error e else .ok (.ofNat 64 (ofLe (bytes.take 8)), bytes.drop 8)

/-- Fails unless the stream is used up. -/
def finish : Parser ε Unit := fun bytes =>
  if bytes.isEmpty then .ok ((), bytes) else .error e

/-- A machine word as a number. -/
def number : Parser ε Nat := do
  let value ← word e
  pure value.toNat

/-- Reads a row of bytes behind its length. -/
def counted : Parser ε (List (BitVec 8)) := do
  let length ← number e
  fun bytes =>
    if bytes.length < length then .error e
    else .ok (bytes.take length, bytes.drop length)

/-- The low bits of a machine word. -/
def truncated (width : Nat) : Parser ε (BitVec width) := do
  let value ← word e
  pure (value.setWidth width)

/-- A machine word that is zero or not. -/
def flag : Parser ε Bool := do
  let value ← word e
  pure (value != 0)

/-- Fails under a condition. -/
def refuse (condition : Bool) : Parser ε Unit := fun bytes =>
  if condition then .error e else .ok ((), bytes)

/-- How many bytes are left. -/
def remaining : Parser ε Nat := fun bytes => .ok (bytes.length, bytes)

/-- A part that may be missing at the end of the stream. -/
def orAtEnd (missing : α) (p : Parser ε α) : Parser ε α := fun bytes =>
  if bytes.isEmpty then .ok (missing, bytes) else p bytes

/-- Takes a step `count` times round. -/
def iterate (step : σ → Parser ε σ) : Nat → σ → Parser ε σ
  | 0, s => pure s
  | count + 1, s => do
    let s ← step s
    iterate step count s

/-- `p` takes exactly `bytes` and gives `a`, whatever follows. -/
def Reads (p : Parser ε α) (bytes : List (BitVec 8)) (a : α) : Prop :=
  ∀ rest, p (bytes ++ rest) = .ok (a, rest)

theorem run_bind (p : Parser ε α) (f : α → Parser ε β) (bytes : List (BitVec 8)) :
    (p >>= f) bytes = (p bytes >>= fun out => f out.1 out.2) := rfl

variable {bytes : List (BitVec 8)}

theorem Reads.run {p : Parser ε α} {a : α} (h : Reads p bytes a) (f : α → Parser ε β)
    (rest : List (BitVec 8)) : (p >>= f) (bytes ++ rest) = f a rest := by
  rw [run_bind, h rest]
  rfl

theorem Reads.pure (a : α) : Reads (Pure.pure a : Parser ε α) [] a := fun _ => rfl

theorem Reads.bind {p : Parser ε α} {f : α → Parser ε β} {first second : List (BitVec 8)}
    {a : α} {b : β} (hp : Reads p first a) (hf : Reads (f a) second b) :
    Reads (p >>= f) (first ++ second) b := by
  intro rest
  rw [List.append_assoc, hp.run f, hf rest]

theorem Reads.map {p : Parser ε α} {a : α} (h : Reads p bytes a)
    (f : α → β) : Reads (p >>= fun x => Pure.pure (f x)) bytes (f a) := by
  have hboth := h.bind (f := fun x => Pure.pure (f x)) (Reads.pure (f a))
  rwa [List.append_nil] at hboth

theorem reads_word (value : BitVec 64) : Reads (word e) (wordBytes value) value := by
  intro rest
  have hlen : ¬ (wordBytes value ++ rest).length < 8 := by
    rw [List.length_append, length_wordBytes]
    omega
  have htake : (wordBytes value ++ rest).take 8 = wordBytes value := by
    rw [List.take_append_of_le_length (by simp), List.take_of_length_le (by simp)]
  have hdrop : (wordBytes value ++ rest).drop 8 = rest := by
    rw [List.drop_append_of_le_length (by simp), List.drop_of_length_le (by simp), List.nil_append]
  rw [word, if_neg hlen, htake, hdrop, wordBytes, ofNat_ofLe_leBytes 8 rfl]

theorem reads_number {value : Nat} (h : value < 2 ^ 64) :
    Reads (number e) (numberBytes value) value := by
  have hread := (reads_word e (.ofNat 64 value)).map BitVec.toNat
  rwa [BitVec.toNat_ofNat, Nat.mod_eq_of_lt h] at hread

theorem reads_truncated {width : Nat} (hwidth : width ≤ 64) (value : BitVec width) :
    Reads (truncated e width) (shortBytes value) value := by
  have hread := (reads_word e (value.setWidth 64)).map (·.setWidth width)
  rwa [BitVec.setWidth_setWidth_of_le _ hwidth, BitVec.setWidth_eq] at hread

theorem reads_signed (value : BitVec 32) :
    Reads (truncated e 32) (wordBytes (value.signExtend 64)) value := by
  have hback : (value.signExtend 64).setWidth 32 = value := by
    ext i hi
    have hwide : i < 64 := by omega
    rw [BitVec.getElem_setWidth, BitVec.getLsbD_signExtend]
    simp [hi, hwide]
  have hread := (reads_word e (value.signExtend 64)).map (·.setWidth 32)
  rwa [hback] at hread

theorem reads_flag (value : Bool) : Reads (flag e) (flagBytes value) value := by
  have hread := (reads_word e (if value then 1 else 0)).map (· != 0)
  cases value <;> exact hread

variable {condition : Bool}

theorem reads_refuse (h : condition = false) : Reads (refuse e condition) [] () := by
  intro rest
  rw [refuse, h]
  rfl

theorem reads_counted {value : List (BitVec 8)} (h : value.length < 2 ^ 64) :
    Reads (counted e) (countedBytes value) value := by
  intro rest
  have hlen : ¬ (value ++ rest).length < value.length := by
    rw [List.length_append]
    omega
  rw [counted, countedBytes, List.append_assoc, (reads_number e h).run]
  rw [if_neg hlen, List.take_left, List.drop_left]

theorem run_remaining (f : Nat → Parser ε α) (bytes : List (BitVec 8)) :
    ((remaining : Parser ε Nat) >>= f) bytes = f bytes.length bytes := rfl

theorem run_refuse (h : condition = false) (f : Unit → Parser ε α)
    (bytes : List (BitVec 8)) : (refuse e condition >>= f) bytes = f () bytes :=
  (reads_refuse e h).run f bytes

theorem run_refuse_error (h : condition = true) (f : Unit → Parser ε α)
    (bytes : List (BitVec 8)) : (refuse e condition >>= f) bytes = .error e := by
  rw [run_bind, refuse, h]
  rfl

theorem Reads.orAtEnd {p : Parser ε α} {a : α} (h : Reads p bytes a)
    (missing : α) (hne : bytes ≠ []) : Reads (Library.orAtEnd missing p) bytes a := by
  intro rest
  obtain ⟨byte, bytes, rfl⟩ := List.exists_cons_of_ne_nil hne
  exact h rest

/-- The rule of a loop: `g` is what it holds after the items read so far. -/
theorem Reads.iterate {ι : Type} {step : σ → Parser ε σ} {enc : ι → List (BitVec 8)}
    {g : List ι → σ} (items : List ι) (h : ∀ front item back, items = front ++ item :: back →
      Reads (step (g front)) (enc item) (g (front ++ [item]))) :
    Reads (Library.iterate step items.length (g [])) (items.flatMap enc) (g items) := by
  suffices hall : ∀ back front, items = front ++ back →
      Reads (Library.iterate step back.length (g front)) (back.flatMap enc) (g items) from
    hall items [] rfl
  intro back
  induction back with
  | nil =>
    intro front hitems
    rw [List.append_nil] at hitems
    rw [hitems]
    exact Reads.pure _
  | cons item back ih =>
    intro front hitems
    have hrest := ih (front ++ [item]) (by rw [hitems, List.append_assoc]; rfl)
    exact (h front item back hitems).bind hrest

theorem iterate_add (step : σ → Parser ε σ) (n m : Nat) (s : σ) :
    Library.iterate step (n + m) s = Library.iterate step n s >>= Library.iterate step m := by
  induction n generalizing s with
  | zero => rw [Nat.zero_add]; rfl
  | succ n ih =>
    rw [Nat.succ_add, Library.iterate, Library.iterate, bind_assoc]
    exact congrArg _ (funext ih)

/-- A loop fails where it meets the first item that cannot be read. -/
theorem iterate_error {ι : Type} {step : σ → Parser ε σ} {enc : ι → List (BitVec 8)}
    {g : List ι → σ} {front back : List ι} {item : ι}
    (h : ∀ before next after, front = before ++ next :: after →
      Reads (step (g before)) (enc next) (g (before ++ [next])))
    (herror : ∀ rest, step (g front) (enc item ++ rest) = .error e) (rest : List (BitVec 8)) :
    Library.iterate step (front ++ item :: back).length (g [])
      ((front ++ item :: back).flatMap enc ++ rest) = .error e := by
  rw [List.length_append, List.length_cons, iterate_add, List.flatMap_append, List.append_assoc,
    (Reads.iterate front h).run, Library.iterate, List.flatMap_cons, List.append_assoc, run_bind,
    herror]
  rfl

theorem orAtEnd_of_ne_nil (missing : α) (p : Parser ε α)
    (h : bytes ≠ []) : orAtEnd missing p bytes = p bytes := by
  rw [orAtEnd, if_neg (by rwa [List.isEmpty_iff])]

theorem run_orAtEnd_nil (missing : α) (p : Parser ε α) (f : α → Parser ε β) :
    (orAtEnd missing p >>= f) [] = f missing [] := rfl

theorem run_finish_nil (f : Unit → Parser ε α) : (finish e >>= f) [] = f () [] := rfl

theorem run_error {p : Parser ε α} (h : p bytes = .error e)
    (f : α → Parser ε β) : (p >>= f) bytes = .error e := by
  rw [run_bind, h]
  rfl

/-- A loop that appends what it reads. -/
theorem Reads.iterate_push {ι : Type} {p : Parser ε ι} {enc : ι → List (BitVec 8)}
    (items : List ι) (h : ∀ item ∈ items, Reads p (enc item) item) :
    Reads (Library.iterate (fun xs => do let x ← p; Pure.pure (xs ++ [x])) items.length [])
      (items.flatMap enc) items :=
  Reads.iterate (g := id) items fun front item back hitems =>
    (h item (by rw [hitems]; exact List.mem_append_right _ List.mem_cons_self)).map
      fun x => front ++ [x]

end Parsers

/-! ## Tables -/

section Tables

variable {κ β : Type} {cmp : κ → κ → Ordering} [TransCmp cmp] [LawfulEqCmp cmp]

/-- A table read entry by entry. -/
def insertAll (entries : List (κ × β)) : ExtTreeMap κ β cmp :=
  entries.foldl (fun t entry => t.insert entry.1 entry.2) ∅

omit [LawfulEqCmp cmp] in
theorem insertAll_append (entries : List (κ × β)) (entry : κ × β) :
    (insertAll (entries ++ [entry]) : ExtTreeMap κ β cmp) =
      (insertAll entries).insert entry.1 entry.2 := by
  rw [insertAll, List.foldl_append]
  rfl

theorem get_insertAll {entries : List (κ × β)} (hkeys : (entries.map Prod.fst).Nodup)
    (k : κ) (v : β) : (insertAll entries : ExtTreeMap κ β cmp)[k]? = some v ↔ (k, v) ∈ entries := by
  classical
  induction entries using List.reverseRecOn with
  | nil => simp [insertAll]
  | append_singleton entries entry ih =>
    rw [List.map_append, List.nodup_append] at hkeys
    obtain ⟨hfront, -, hdisjoint⟩ := hkeys
    rw [insertAll_append, get_insert, List.mem_append, List.mem_singleton]
    split
    · next heq =>
      subst heq
      have hnot : (entry.1, v) ∉ entries := fun hmem =>
        hdisjoint _ (List.mem_map_of_mem (f := Prod.fst) hmem) entry.1 (by simp) rfl
      simp only [Option.some.injEq, hnot, false_or]
      constructor
      · rintro rfl
        rfl
      · intro heq
        rw [← heq]
    · next hne =>
      have hne' : (k, v) ≠ entry := fun heq => hne (by rw [← heq])
      simp only [hne', or_false]
      exact ih hfront

/-- A table is what its entries make. -/
theorem insertAll_toList (t : ExtTreeMap κ β cmp) : insertAll t.toList = t := by
  refine ExtTreeMap.ext_getElem? fun k => ?_
  ext v
  rw [get_insertAll (nodup_keys_toList t), ExtTreeMap.mem_toList_iff_getElem?_eq_some]

theorem not_mem_insertAll {front back : List (κ × β)} {entry : κ × β}
    (hkeys : ((front ++ entry :: back).map Prod.fst).Nodup) :
    (insertAll front : ExtTreeMap κ β cmp)[entry.1]? = none := by
  rw [List.map_append, List.nodup_append] at hkeys
  obtain ⟨hfront, -, hdisjoint⟩ := hkeys
  rw [Option.eq_none_iff_forall_ne_some]
  intro v hv
  have hmem := (get_insertAll hfront entry.1 v).mp hv
  exact hdisjoint _ (List.mem_map_of_mem (f := Prod.fst) hmem) entry.1 (by simp) rfl

end Tables

end Kinakaze.Library
