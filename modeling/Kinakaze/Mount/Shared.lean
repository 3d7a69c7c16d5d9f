import Kinakaze.Library.LittleEndian
import Kinakaze.Library.Run

/-!
# A value shared by processes

A store keeps one value in two banks.  The publication word counts the values so far,
and its lowest bit says which bank holds the current one.  Writers hold the store's
mutex, fill the other bank and then publish; readers copy a bank without the mutex and
start again when the publication word has moved.

Every load and store of a bank word, of a bank's length or of the publication word is a
step of its own, and a thread can die between any two of them.
-/

namespace Kinakaze.Mount.Shared

open Library

abbrev Bytes := List (BitVec 8)

def EIO : Int := 5
def ENOSPC : Int := 28

def BANK_SIZE : Nat := 32 * 1024 * 1024

structure Bank where
  length : Nat
  words : Nat → BitVec 64

/-- What a thread is doing with the store. -/
inductive Job where
  | read
  | update (action : Bytes → Except Int Bytes)
  | replace (bytes : Bytes)

/-- How far a thread has come. -/
inductive Thread where
  | idle
  | dead
  /-- In front of the mutex. -/
  | acquiring (job : Job)
  /-- About to load the publication word. -/
  | starting (job : Job)
  /-- About to load the length of the bank. -/
  | measuring (job : Job) (revision : Nat)
  /-- About to load the next word of the bank. -/
  | copying (job : Job) (revision length : Nat) (words : List (BitVec 64))
  /-- About to load the publication word again. -/
  | checking (revision : Nat) (bytes : Except Int Bytes)
  /-- About to commit pages for the other bank. -/
  | committing (revision : Nat) (bytes : Bytes)
  /-- About to store the next word, or the length behind the last one. -/
  | staging (revision : Nat) (bytes : Bytes) (index : Nat)
  /-- About to store the publication word. -/
  | publishing (revision : Nat) (bytes : Bytes)
  /-- About to release the mutex. -/
  | leaving

/-- The section shared by all threads, and what has happened in it: the values published
under each revision, and the values that were read under a revision. -/
structure Store where
  publication : Nat
  banks : Nat → Bank
  holder : Option Nat
  threads : Nat → Thread
  published : List Bytes
  seen : List (Nat × Bytes)

/-- The bank of a revision. -/
def Store.bank (s : Store) (revision : Nat) : Bank := s.banks (revision % 2)

def Store.go (s : Store) (t : Nat) (thread : Thread) : Store :=
  { s with threads := Function.update s.threads t thread }

def Store.setBank (s : Store) (revision : Nat) (bank : Bank) : Store :=
  { s with banks := Function.update s.banks (revision % 2) bank }

/-- A value was read under a revision. -/
def Store.see (s : Store) (revision : Nat) (bytes : Bytes) : Store :=
  { s with seen := s.seen ++ [(revision, bytes)] }

/-- `bank_matches` on one word: only the bytes that the value has there count. -/
def wordMatches (bytes : Bytes) (index : Nat) (word : BitVec 64) : Bool :=
  let chunk := (bytes.drop (8 * index)).take 8
  (leBytes 8 word.toNat).take chunk.length == chunk

/-- The length of the bank is out of range. -/
def Store.refuse (s : Store) (t : Nat) (job : Job) (revision : Nat) : Store :=
  match job with
  | .read => s.go t (.checking revision (.error EIO))
  | .update _ | .replace _ => s.go t .leaving

/-- The length of the bank has been loaded. -/
def Store.measure (s : Store) (t : Nat) (job : Job) (revision length : Nat) : Store :=
  if BANK_SIZE - 8 < length then s.refuse t job revision
  else
    match job with
    | .replace bytes =>
      if BANK_SIZE - 8 < bytes.length then s.go t .leaving
      else if length ≠ bytes.length then s.go t (.committing revision bytes)
      else s.go t (.copying job revision length [])
    | .read | .update _ => s.go t (.copying job revision length [])

/-- A word of the bank has been loaded; a replacement stops at the first that differs. -/
def Store.copyWord (s : Store) (t : Nat) (job : Job) (revision length : Nat)
    (words : List (BitVec 64)) (word : BitVec 64) : Store :=
  match job with
  | .replace bytes =>
    if wordMatches bytes words.length word then
      s.go t (.copying job revision length (words ++ [word]))
    else s.go t (.committing revision bytes)
  | .read | .update _ => s.go t (.copying job revision length (words ++ [word]))

/-- The bank has been copied. -/
def Store.copied (s : Store) (t : Nat) (job : Job) (revision : Nat) (bytes : Bytes) : Store :=
  match job with
  | .read => s.go t (.checking revision (.ok bytes))
  | .update action =>
    match action bytes with
    | .error _ => (s.see revision bytes).go t .leaving
    | .ok new =>
      if BANK_SIZE - 8 < new.length then (s.see revision bytes).go t .leaving
      else if new = bytes then (s.see revision bytes).go t .leaving
      else (s.see revision bytes).go t (.committing revision new)
  | .replace _ => s.go t .leaving

/-- The next step of thread `t`; the host refuses a call when `ok` is false. -/
def Store.advance (s : Store) (t : Nat) (ok : Bool) : Store :=
  match s.threads t with
  | .idle | .dead => s
  | .acquiring job =>
    if !ok then s.go t .idle
    else if s.holder.isNone then { s.go t (.starting job) with holder := some t }
    else s
  | .starting job => s.go t (.measuring job s.publication)
  | .measuring job revision => s.measure t job revision (s.bank revision).length
  | .copying job revision length words =>
    if 8 * words.length < length then
      s.copyWord t job revision length words ((s.bank revision).words words.length)
    else s.copied t job revision (bytesOf words length)
  | .checking revision bytes =>
    if s.publication = revision then
      match bytes with
      | .ok bytes => (s.see revision bytes).go t .idle
      | .error _ => s.go t .idle
    else s.go t (.starting .read)
  | .committing revision bytes =>
    if revision + 1 < 2 ^ 64 && ok then s.go t (.staging revision bytes 0) else s.go t .leaving
  | .staging revision bytes index =>
    let bank := s.bank (revision + 1)
    if 8 * index < bytes.length then
      let words := Function.update bank.words index (wordAt bytes index)
      (s.setBank (revision + 1) { bank with words }).go t (.staging revision bytes (index + 1))
    else
      (s.setBank (revision + 1) { bank with length := bytes.length }).go t
        (.publishing revision bytes)
  | .publishing revision bytes =>
    { s.go t .leaving with publication := revision + 1, published := s.published ++ [bytes] }
  | .leaving => { s.go t .idle with holder := none }

inductive Action where
  | begin (t : Nat) (job : Job)
  | advance (t : Nat) (ok : Bool)
  /-- The thread dies and abandons the mutex if it holds it. -/
  | die (t : Nat)

def Store.step (s : Store) : Action → Store
  | .begin t job =>
    match s.threads t with
    | .idle =>
      match job with
      | .read => s.go t (.starting job)
      | .update _ | .replace _ => s.go t (.acquiring job)
    | _ => s
  | .advance t ok => s.advance t ok
  | .die t =>
    { s.go t .dead with holder := if s.holder = some t then none else s.holder }

/-- A new store: revision 0 is the empty value. -/
def Store.initial : Store :=
  ⟨0, fun _ => ⟨0, fun _ => 0⟩, none, fun _ => .idle, [[]], []⟩

end Kinakaze.Mount.Shared
