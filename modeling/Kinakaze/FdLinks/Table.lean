import Kinakaze.Library.FirstMatch
import Kinakaze.Library.Probing
import Kinakaze.Library.Run

/-!
# The links of open descriptors

The process table keeps the targets of `/proc/<pid>/fd` in an open-addressed table of its own. All
processes share it, and a process writes, copies or clears the links of one pid at a time.

* `Map.act`: what the calls do, over a map from descriptors to targets.
* `run_refines`: the table is that map, after any calls.
-/

namespace Kinakaze.FdLinks

open Library

abbrev Pid := BitVec 32

/-- An `i32`, or the `u32` with the same bits. -/
abbrev Fd := BitVec 32

abbrev Key := Pid × Fd

abbrev FD_LINK_CAPACITY : Nat := 8192

def FD_LINK_TARGET_CAPACITY : Nat := 1024

inductive FdLinkError where
  | processNotFound
  | invalidDescriptor
  | targetTooLong
  | capacityExhausted
  | corruptRecord
  deriving DecidableEq

/-- The records, each in one of its three states. -/
abbrev Links := Fin FD_LINK_CAPACITY → Slot Key ByteArray

/-- The processes that `find` finds. -/
structure Processes where
  find : Pid → Bool
  find_zero : find 0 = false

def fdLinkHash (key : Key) : Nat :=
  let value := (key.1.setWidth 64 <<< 32) ||| key.2.setWidth 64
  let value := (value ^^^ (value >>> 30)) * 0xbf58476d1ce4e5b9#64
  let value := (value ^^^ (value >>> 27)) * 0x94d049bb133111eb#64
  ((value ^^^ (value >>> 31)) &&& BitVec.ofNat 64 (FD_LINK_CAPACITY - 1)).toNat

@[irreducible] def probes (key : Key) : List (Fin FD_LINK_CAPACITY) :=
  around FD_LINK_CAPACITY (fdLinkHash key)

def findFdLink (t : Links) (pid : Pid) (fd : Fd) : Option (Fin FD_LINK_CAPACITY) :=
  findSlot t (pid, fd) (probes (pid, fd))

def writeFdLink (t : Links) (pid : Pid) (fd : Fd) (target : ByteArray) : Option Links :=
  writeSlot probes t (pid, fd) target

def clearFdLinks (t : Links) (pid : Pid) : Links :=
  if pid = 0 then t else discardSlots (·.1 = pid) t

/-- The loop of `replace_fd_links` and of `clone_fd_links`: a write that fails clears the pid. -/
def writeAll (t : Links) (pid : Pid) : List (Fd × ByteArray) → Links × Bool
  | [] => (t, true)
  | (fd, target) :: links =>
    match writeFdLink t pid fd target with
    | none => (clearFdLinks t pid, false)
    | some t => writeAll t pid links

/-- The links of a pid, in the order of their slots. -/
def linksOf (t : Links) (pid : Pid) : List (Fd × ByteArray) :=
  (slotEntries (·.1 = pid) t).map fun e => (e.1.2, e.2)

def cloneFdLinks (t : Links) (parent child : Pid) : Links × Bool :=
  if (linksOf t parent).any fun e => FD_LINK_TARGET_CAPACITY < e.2.size then (t, false)
  else writeAll (clearFdLinks t child) child (linksOf t parent)

/-! ## The calls -/

def tooLong (target : String) : Bool := FD_LINK_TARGET_CAPACITY < target.utf8ByteSize

/-- What `replace_fd_links` refuses of its list. -/
def refusal (before : List Fd) : List (Fd × String) → Option FdLinkError
  | [] => none
  | (fd, target) :: links =>
    if fd.toInt < 0 then some .invalidDescriptor
    else if tooLong target then some .targetTooLong
    else if fd ∈ before then some .invalidDescriptor
    else refusal (fd :: before) links

def replaceFdLinks (procs : Processes) (t : Links) (pid : Pid) (links : List (Fd × String)) :
    Links × Except FdLinkError Unit :=
  if pid = 0 then (t, .error .processNotFound)
  else match refusal [] links with
    | some e => (t, .error e)
    | none =>
      if !procs.find pid then (t, .error .processNotFound)
      else if FD_LINK_CAPACITY < countSlots (fun k => !decide (k.1 = pid)) t + links.length then
        (t, .error .capacityExhausted)
      else
        match writeAll (clearFdLinks t pid) pid (links.map fun e => (e.1, e.2.toUTF8)) with
        | (t, true) => (t, .ok ())
        | (t, false) => (t, .error .corruptRecord)

def setFdLink (procs : Processes) (t : Links) (pid : Pid) (fd : Fd) (target : Option String) :
    Links × Except FdLinkError Unit :=
  if fd.toInt < 0 then (t, .error .invalidDescriptor)
  else if target.any tooLong then (t, .error .targetTooLong)
  else if !procs.find pid then (t, .error .processNotFound)
  else match target with
    | some target =>
      match writeFdLink t pid fd target.toUTF8 with
      | none => (t, .error .capacityExhausted)
      | some t => (t, .ok ())
    | none =>
      match findFdLink t pid fd with
      | some i => (Function.update t i .tombstone, .ok ())
      | none => (t, .ok ())

def inheritFdLinks (procs : Processes) (t : Links) (parent child : Pid) :
    Links × Except FdLinkError Unit :=
  if !procs.find parent || !procs.find child then (t, .error .processNotFound)
  else match cloneFdLinks t parent child with
    | (t, true) => (t, .ok ())
    | (t, false) => (t, .error .capacityExhausted)

def fdLink (procs : Processes) (t : Links) (pid : Pid) (fd : Fd) :
    Except FdLinkError (Option String) :=
  if fd.toInt < 0 then .error .invalidDescriptor
  else if !procs.find pid then .error .processNotFound
  else match findFdLink t pid fd with
    | none => .ok none
    | some i =>
      match t i with
      | .occupied _ target =>
        if FD_LINK_TARGET_CAPACITY < target.size then .error .corruptRecord
        else match String.fromUTF8? target with
          | none => .error .corruptRecord
          | some target => .ok (some target)
      | _ => .ok none

def fdLinks (procs : Processes) (t : Links) (pid : Pid) : Except FdLinkError (List Fd) :=
  if !procs.find pid then .error .processNotFound
  else
    let descriptors := (linksOf t pid).map Prod.fst
    if descriptors.any fun fd => 2 ^ 31 - 1 < fd.toNat then .error .corruptRecord
    else .ok (descriptors.mergeSort fun a b => a.toInt ≤ b.toInt)

inductive Call where
  | replace (pid : Pid) (links : List (Fd × String))
  | set (pid : Pid) (fd : Fd) (target : Option String)
  | inherit (parent child : Pid)
  /-- `clear_slot` of a process. -/
  | gone (pid : Pid)

/-- A call, with the processes that there are when it is made. -/
abbrev Event := Processes × Call

def perform (t : Links) : Event → Links × Except FdLinkError Unit
  | (procs, .replace pid links) => replaceFdLinks procs t pid links
  | (procs, .set pid fd target) => setFdLink procs t pid fd target
  | (procs, .inherit parent child) => inheritFdLinks procs t parent child
  | (_, .gone pid) => (clearFdLinks t pid, .ok ())

/-! ## The map -/

abbrev Map := Key → Option String

/-- How many keys with `p` have a target. -/
noncomputable def Map.count (m : Map) (p : Key → Bool) : Nat :=
  Set.ncard {k | p k = true ∧ m k ≠ none}

def Map.forget (m : Map) (pid : Pid) : Map := fun k => if k.1 = pid then none else m k

noncomputable def Map.replace (procs : Processes) (m : Map) (pid : Pid)
    (links : List (Fd × String)) : Map × Except FdLinkError Unit :=
  if pid = 0 then (m, .error .processNotFound)
  else match refusal [] links with
    | some e => (m, .error e)
    | none =>
      if !procs.find pid then (m, .error .processNotFound)
      else if FD_LINK_CAPACITY < m.count (fun k => !decide (k.1 = pid)) + links.length then
        (m, .error .capacityExhausted)
      else (fun k => if k.1 = pid then links.lookup k.2 else m k, .ok ())

noncomputable def Map.set (procs : Processes) (m : Map) (pid : Pid) (fd : Fd)
    (target : Option String) : Map × Except FdLinkError Unit :=
  if fd.toInt < 0 then (m, .error .invalidDescriptor)
  else if target.any tooLong then (m, .error .targetTooLong)
  else if !procs.find pid then (m, .error .processNotFound)
  else if target ≠ none ∧ m (pid, fd) = none ∧ m.count (fun _ => true) = FD_LINK_CAPACITY then
    (m, .error .capacityExhausted)
  else (Function.update m (pid, fd) target, .ok ())

noncomputable def Map.inherit (procs : Processes) (m : Map) (parent child : Pid) :
    Map × Except FdLinkError Unit :=
  if !procs.find parent || !procs.find child then (m, .error .processNotFound)
  else if FD_LINK_CAPACITY <
      m.count (fun k => !decide (k.1 = child)) + m.count fun k => decide (k.1 = parent) then
    (m.forget child, .error .capacityExhausted)
  else (fun k => if k.1 = child then m (parent, k.2) else m k, .ok ())

noncomputable def Map.act (m : Map) : Event → Map × Except FdLinkError Unit
  | (procs, .replace pid links) => m.replace procs pid links
  | (procs, .set pid fd target) => m.set procs pid fd target
  | (procs, .inherit parent child) => m.inherit procs parent child
  | (_, .gone pid) => (m.forget pid, .ok ())

def Map.fdLink (procs : Processes) (m : Map) (pid : Pid) (fd : Fd) :
    Except FdLinkError (Option String) :=
  if fd.toInt < 0 then .error .invalidDescriptor
  else if !procs.find pid then .error .processNotFound
  else .ok (m (pid, fd))

/-- The descriptors of a process are listed once each, in ascending order. -/
def Map.Lists (procs : Processes) (m : Map) (pid : Pid) (answer : Except FdLinkError (List Fd)) :
    Prop :=
  if procs.find pid then ∃ list, answer = .ok list ∧
    list.Pairwise (fun a b => a.toInt < b.toInt) ∧ ∀ fd, fd ∈ list ↔ m (pid, fd) ≠ none
  else answer = .error .processNotFound

/-! ## Targets -/

/-- What the calls let into the map. -/
def Map.Lawful (m : Map) : Prop := ∀ pid fd target, m (pid, fd) = some target →
  pid ≠ 0 ∧ 0 ≤ fd.toInt ∧ tooLong target = false

variable {m : Map} {t t' : Links} {pid parent child : Pid} {fd : Fd} {target : String}
  {procs : Processes} {links : List (Fd × String)}

theorem refusal_eq_none {before : List Fd} (h : refusal before links = none) :
    (links.map Prod.fst).Nodup ∧ ∀ e ∈ links,
      0 ≤ e.1.toInt ∧ tooLong e.2 = false ∧ e.1 ∉ before := by
  induction links generalizing before with
  | nil => simp
  | cons e links ih =>
    obtain ⟨fd, target⟩ := e
    rw [refusal] at h
    split at h
    · cases h
    next hfd =>
    split at h
    · cases h
    next htarget =>
    split at h
    · cases h
    next hbefore =>
    obtain ⟨hnodup, hall⟩ := ih h
    refine ⟨List.nodup_cons.mpr ⟨fun hin => ?_, hnodup⟩, fun e he => ?_⟩
    · obtain ⟨e, he, heq⟩ := List.mem_map.mp hin
      exact (hall e he).2.2 (heq ▸ List.mem_cons_self)
    · rcases List.mem_cons.mp he with rfl | he
      · exact ⟨not_lt.mp hfd, by simpa using htarget, hbefore⟩
      · obtain ⟨h1, h2, h3⟩ := hall e he
        exact ⟨h1, h2, fun hin => h3 (List.mem_cons_of_mem _ hin)⟩

theorem Processes.ne_zero (h : procs.find pid = true) : pid ≠ 0 := by
  rintro rfl
  rw [procs.find_zero] at h
  cases h

theorem Processes.child_ne_zero (h : ¬(!procs.find parent || !procs.find child) = true) :
    child ≠ 0 := by
  rw [Bool.or_eq_true, not_or] at h
  exact procs.ne_zero (by simpa using h.2)

theorem Map.Lawful.forget (h : m.Lawful) (pid : Pid) : (m.forget pid).Lawful := by
  intro pid' fd target hsome
  unfold Map.forget at hsome
  split at hsome
  · cases hsome
  · exact h pid' fd target hsome

/-- Nothing is kept for the pid 0, which `clear_fd_links` passes over. -/
theorem Map.Lawful.forget_zero (h : m.Lawful) (hpid : pid = 0) : m.forget pid = m := by
  funext k
  unfold Map.forget
  split
  · next hk =>
    refine (Option.eq_none_iff_forall_ne_some.mpr fun target hsome => ?_).symm
    exact (h k.1 k.2 target hsome).1 (hk.trans hpid)
  · rfl

theorem Map.Lawful.act (h : m.Lawful) (e : Event) : (m.act e).1.Lawful := by
  obtain ⟨procs, call⟩ := e
  cases call with
  | replace pid links =>
    show (m.replace procs pid links).1.Lawful
    unfold Map.replace
    split
    · exact h
    next hpid =>
    split
    · exact h
    next hrefusal =>
    split
    · exact h
    split
    · exact h
    intro pid' fd target hsome
    dsimp only at hsome
    split at hsome
    · next heq =>
      obtain ⟨hfd, htarget, -⟩ := (refusal_eq_none hrefusal).2 _ (mem_of_lookup hsome)
      exact ⟨heq ▸ hpid, hfd, htarget⟩
    · exact h pid' fd target hsome
  | set pid fd target =>
    show (m.set procs pid fd target).1.Lawful
    unfold Map.set
    split
    · exact h
    next hfd =>
    split
    · exact h
    next htarget =>
    split
    · exact h
    next hfind =>
    split
    · exact h
    intro pid' fd' target' hsome
    dsimp only at hsome
    rw [Function.update_apply] at hsome
    split at hsome
    · next heq =>
      cases heq
      subst hsome
      exact ⟨procs.ne_zero (by simpa using hfind), not_lt.mp hfd, by simpa using htarget⟩
    · exact h pid' fd' target' hsome
  | inherit parent child =>
    show (m.inherit procs parent child).1.Lawful
    unfold Map.inherit
    split
    · exact h
    next hfind =>
    split
    · exact h.forget child
    intro pid' fd target hsome
    dsimp only at hsome
    split at hsome
    · next heq =>
      obtain ⟨-, hfd, htarget⟩ := h parent fd target hsome
      exact ⟨heq ▸ procs.child_ne_zero hfind, hfd, htarget⟩
    · exact h pid' fd target hsome
  | gone pid => exact h.forget pid

/-! ## The table is the map -/

/-- The table answers for every descriptor what the map has. -/
structure Refines (t : Links) (m : Map) : Prop where
  chained : Chained probes t
  lookup : ∀ k, lookupSlot probes t k = (m k).map String.toUTF8

theorem mem_probes {key : Key} (i : Fin FD_LINK_CAPACITY) : i ∈ probes key := by
  unfold probes
  exact mem_around _ i

theorem Refines.count (h : Refines t m) (p : Key → Bool) : countSlots p t = m.count p := by
  rw [h.chained.countSlots_eq_ncard, Map.count]
  simp only [h.lookup, ne_eq, Option.map_eq_none_iff]

theorem Refines.write_eq_none_iff (h : Refines t m) {bytes : ByteArray} :
    writeFdLink t pid fd bytes = none ↔
      m (pid, fd) = none ∧ m.count (fun _ => true) = FD_LINK_CAPACITY := by
  rw [writeFdLink, h.chained.write_eq_none_iff mem_probes, h.lookup, Option.map_eq_none_iff, h.count]

theorem Refines.write (h : Refines t m)
    (hwrite : writeFdLink t pid fd target.toUTF8 = some t') :
    Refines t' (Function.update m (pid, fd) (some target)) := by
  obtain ⟨hchained, hlookup⟩ := h.chained.write hwrite
  refine ⟨hchained, fun k => ?_⟩
  rw [hlookup, Function.update_apply]
  split
  · rfl
  · exact h.lookup k

theorem Refines.clear (h : Refines t m) (hzero : pid = 0 → m.forget pid = m) :
    Refines (clearFdLinks t pid) (m.forget pid) := by
  unfold clearFdLinks
  split
  · next hpid => rwa [hzero hpid]
  · obtain ⟨hchained, hlookup⟩ := h.chained.discard fun k => decide (k.1 = pid)
    refine ⟨hchained, fun k => ?_⟩
    rw [hlookup, Map.forget]
    by_cases hk : k.1 = pid
    · simp [hk]
    · simp [hk, h.lookup]

theorem Refines.find_eq_none (h : Refines t m) (hfind : findFdLink t pid fd = none) :
    m (pid, fd) = none := by
  have hslot : findSlot t (pid, fd) (probes (pid, fd)) = none := hfind
  have hlookup := h.lookup (pid, fd)
  rw [lookupSlot, hslot] at hlookup
  exact Option.map_eq_none_iff.mp hlookup.symm

theorem Refines.remove (h : Refines t m) {i : Fin FD_LINK_CAPACITY}
    (hfind : findFdLink t pid fd = some i) :
    Refines (Function.update t i .tombstone) (Function.update m (pid, fd) none) := by
  have hslot : findSlot t (pid, fd) (probes (pid, fd)) = some i := hfind
  rw [h.chained.update_find hslot]
  obtain ⟨hchained, hlookup⟩ := h.chained.discard fun k => decide (k = (pid, fd))
  refine ⟨hchained, fun k => ?_⟩
  rw [hlookup, Function.update_apply]
  by_cases hk : k = (pid, fd)
  · simp [hk]
  · simp [hk, h.lookup]

/-! ## Writing many links -/

/-- The map after links were written for a pid. -/
def Map.put (m : Map) (pid : Pid) (links : List (Fd × String)) : Map := fun k =>
  if k.1 = pid then (links.lookup k.2).or (m k) else m k

def encoded (links : List (Fd × String)) : List (Fd × ByteArray) :=
  links.map fun e => (e.1, e.2.toUTF8)

theorem Map.put_cons (hfd : fd ∉ links.map Prod.fst) :
    Map.put (Function.update m (pid, fd) (some target)) pid links =
      m.put pid ((fd, target) :: links) := by
  funext ⟨pid', fd'⟩
  unfold Map.put
  dsimp only
  split
  · next hpid =>
    subst hpid
    rw [List.lookup_cons]
    split
    · next heq =>
      obtain rfl : fd' = fd := by simpa using heq
      have hnone : links.lookup fd' = none := by
        refine Option.eq_none_iff_forall_ne_some.mpr fun target' hsome => hfd ?_
        exact List.mem_map.mpr ⟨_, mem_of_lookup hsome, rfl⟩
      simp [hnone]
    · next hne =>
      rw [Function.update_of_ne]
      rintro heq
      cases heq
      simp at hne
  · next hpid =>
    rw [Function.update_of_ne]
    rintro heq
    cases heq
    exact hpid rfl

theorem Map.forget_update {value : Option String} :
    Map.forget (Function.update m (pid, fd) value) pid = m.forget pid := by
  funext k
  unfold Map.forget
  split
  · rfl
  · next hk =>
    rw [Function.update_of_ne]
    rintro rfl
    exact hk rfl

theorem Refines.count_le (h : Refines t m) (p : Key → Bool) : m.count p ≤ FD_LINK_CAPACITY := by
  rw [← h.count, countSlots]
  exact List.countP_le_length.trans_eq List.length_finRange

theorem Refines.count_write (h : Refines t m) (hnone : m (pid, fd) = none)
    (hwrite : writeFdLink t pid fd target.toUTF8 = some t') :
    Map.count (Function.update m (pid, fd) (some target)) (fun _ => true) =
      m.count (fun _ => true) + 1 := by
  rw [← (h.write hwrite).count, ← h.count]
  exact h.chained.count_write (by rw [h.lookup, hnone]; rfl) hwrite

/-- The loop writes all links, or it leaves none of the pid. -/
theorem Refines.writeAll (h : Refines t m) (hnodup : (links.map Prod.fst).Nodup)
    (hnone : ∀ e ∈ links, m (pid, e.1) = none) (hpid : pid ≠ 0) :
    if FD_LINK_CAPACITY < m.count (fun _ => true) + links.length then
      ∃ t', writeAll t pid (encoded links) = (t', false) ∧ Refines t' (m.forget pid)
    else ∃ t', writeAll t pid (encoded links) = (t', true) ∧ Refines t' (m.put pid links) := by
  -- the table and the map take each write together, until one finds no room
  induction links generalizing t m with
  | nil =>
    have hput : m.put pid [] = m := by
      funext k
      simp [Map.put]
    have hroom := h.count_le fun _ => true
    rw [if_neg (by simpa using hroom), hput]
    exact ⟨t, rfl, h⟩
  | cons e links ih =>
    obtain ⟨fd, target⟩ := e
    obtain ⟨hfd, hnodup⟩ := List.nodup_cons.mp hnodup
    have hfresh : m (pid, fd) = none := hnone _ List.mem_cons_self
    rw [encoded, List.map_cons, FdLinks.writeAll]
    cases hwrite : writeFdLink t pid fd target.toUTF8 with
    | none =>
      have hfull := (h.write_eq_none_iff.mp hwrite).2
      rw [if_pos (by rw [hfull, List.length_cons]; omega)]
      exact ⟨_, rfl, h.clear fun hzero => absurd hzero hpid⟩
    | some t' =>
      have hrest : ∀ e ∈ links,
          Function.update m (pid, fd) (some target) (pid, e.1) = none := by
        intro e he
        rw [Function.update_of_ne]
        · exact hnone e (List.mem_cons_of_mem _ he)
        · rintro heq
          cases heq
          exact hfd (List.mem_map.mpr ⟨e, he, rfl⟩)
      have hnext := ih (h.write hwrite) hnodup hrest
      rw [h.count_write hfresh hwrite, Map.forget_update, Map.put_cons hfd] at hnext
      rw [List.length_cons, show m.count (fun _ => true) + (links.length + 1) =
        m.count (fun _ => true) + 1 + links.length by omega]
      exact hnext

theorem Map.count_forget :
    (m.forget pid).count (fun _ => true) = m.count fun k => !decide (k.1 = pid) := by
  unfold Map.count Map.forget
  congr 1
  ext k
  by_cases hk : k.1 = pid <;> simp [hk]

/-- Replacing the links of a pid: the old ones go, and the new ones are written. -/
theorem Refines.rewrite (h : Refines t m) (hnodup : (links.map Prod.fst).Nodup) (hpid : pid ≠ 0) :
    if FD_LINK_CAPACITY < m.count (fun k => !decide (k.1 = pid)) + links.length then
      ∃ t', FdLinks.writeAll (clearFdLinks t pid) pid (encoded links) = (t', false) ∧
        Refines t' (m.forget pid)
    else ∃ t', FdLinks.writeAll (clearFdLinks t pid) pid (encoded links) = (t', true) ∧
      Refines t' fun k => if k.1 = pid then links.lookup k.2 else m k := by
  have hcleared : Refines (clearFdLinks t pid) (m.forget pid) :=
    h.clear fun hzero => absurd hzero hpid
  have hwritten := hcleared.writeAll hnodup (fun e _ => by simp [Map.forget]) hpid
  have hforget : (m.forget pid).forget pid = m.forget pid := by
    funext k
    by_cases hk : k.1 = pid <;> simp [Map.forget, hk]
  have hput : (m.forget pid).put pid links =
      fun k => if k.1 = pid then links.lookup k.2 else m k := by
    funext k
    by_cases hk : k.1 = pid <;> simp [Map.put, Map.forget, hk]
  rwa [Map.count_forget, hforget, hput] at hwritten

/-! ## The links of a pid -/

/-- The links of a pid are those of the map, each once. -/
theorem Refines.linksOf (h : Refines t m) (pid : Pid) : ∃ links, linksOf t pid = encoded links ∧
    (links.map Prod.fst).Nodup ∧ links.length = m.count (fun k => decide (k.1 = pid)) ∧
    ∀ fd target, (fd, target) ∈ links ↔ m (pid, fd) = some target := by
  have hentry : ∀ {fd bytes}, (fd, bytes) ∈ FdLinks.linksOf t pid ↔
      (m (pid, fd)).map String.toUTF8 = some bytes := by
    intro fd bytes
    rw [← h.lookup, h.chained.lookup_eq_some, FdLinks.linksOf, List.mem_map]
    constructor
    · rintro ⟨⟨⟨pid', fd'⟩, bytes'⟩, he, heq⟩
      cases heq
      obtain ⟨hpid, hslot⟩ := mem_slotEntries.mp he
      obtain rfl : pid' = pid := by simpa using hpid
      exact hslot
    · rintro hslot
      exact ⟨((pid, fd), bytes), mem_slotEntries.mpr ⟨by simp, hslot⟩, rfl⟩
  have hrange : FdLinks.linksOf t pid ∈
      Set.range (List.map fun e : Fd × String => (e.1, e.2.toUTF8)) := by
    rw [Set.range_list_map]
    rintro ⟨fd, bytes⟩ he
    obtain ⟨target, -, rfl⟩ := Option.map_eq_some_iff.mp (hentry.mp he)
    exact ⟨(fd, target), rfl⟩
  obtain ⟨links, hlinks⟩ := hrange
  have hencode : Function.Injective fun e : Fd × String => (e.1, e.2.toUTF8) := by
    rintro ⟨fd, target⟩ ⟨fd', target'⟩ heq
    simp only [Prod.mk.injEq, String.toUTF8_eq_toByteArray, String.toByteArray_inj] at heq
    rw [heq.1, heq.2]
  refine ⟨links, hlinks.symm, ?_, ?_, fun fd target => ?_⟩
  · have hfds : links.map Prod.fst =
        ((slotEntries (fun k => decide (k.1 = pid)) t).map Prod.fst).map Prod.snd := calc
      links.map Prod.fst = (links.map fun e => (e.1, e.2.toUTF8)).map Prod.fst := by
        rw [List.map_map]
        rfl
      _ = _ := by
        rw [hlinks, FdLinks.linksOf, List.map_map, List.map_map]
        rfl
    rw [hfds]
    refine List.Nodup.map_on (fun k hk k' hk' heq => ?_) h.chained.slotEntries_nodup
    obtain ⟨⟨⟨p, f⟩, b⟩, he, rfl⟩ := List.mem_map.mp hk
    obtain ⟨⟨⟨p', f'⟩, b'⟩, he', rfl⟩ := List.mem_map.mp hk'
    have hp : p = pid := by simpa using (mem_slotEntries.mp he).1
    have hp' : p' = pid := by simpa using (mem_slotEntries.mp he').1
    rw [hp, hp', show f = f' from heq]
  · have hlength := congrArg List.length hlinks
    rw [List.length_map, FdLinks.linksOf, List.length_map, length_slotEntries, h.count] at hlength
    exact hlength
  · rw [← List.mem_map_of_injective hencode, hlinks, hentry]
    constructor
    · intro hsome
      obtain ⟨target', hm, heq⟩ := Option.map_eq_some_iff.mp hsome
      rw [hm, Option.some.injEq]
      exact String.toByteArray_inj.mp heq
    · rintro hm
      rw [hm]
      rfl

/-! ## The calls -/

theorem Refines.replace (h : Refines t m) (procs : Processes) (pid : Pid)
    (links : List (Fd × String)) :
    (replaceFdLinks procs t pid links).2 = (m.replace procs pid links).2 ∧
      Refines (replaceFdLinks procs t pid links).1 (m.replace procs pid links).1 := by
  unfold replaceFdLinks Map.replace
  split
  · exact ⟨rfl, h⟩
  next hpid =>
  split
  · exact ⟨rfl, h⟩
  next hrefusal =>
  split
  · exact ⟨rfl, h⟩
  have hwritten := h.rewrite (refusal_eq_none hrefusal).1 hpid
  rw [h.count]
  split
  · exact ⟨rfl, h⟩
  next hroom =>
  rw [if_neg hroom] at hwritten
  obtain ⟨t', hwrite, ht'⟩ := hwritten
  rw [encoded] at hwrite
  rw [hwrite]
  exact ⟨rfl, ht'⟩

theorem Refines.set (h : Refines t m) (procs : Processes) (pid : Pid) (fd : Fd)
    (target : Option String) :
    (setFdLink procs t pid fd target).2 = (m.set procs pid fd target).2 ∧
      Refines (setFdLink procs t pid fd target).1 (m.set procs pid fd target).1 := by
  unfold setFdLink Map.set
  split
  · exact ⟨rfl, h⟩
  split
  · exact ⟨rfl, h⟩
  split
  · exact ⟨rfl, h⟩
  cases target with
  | none =>
    rw [if_neg fun hfull => hfull.1 rfl]
    cases hfind : findFdLink t pid fd with
    | some i => exact ⟨rfl, h.remove hfind⟩
    | none =>
      have hsame : Function.update m (pid, fd) none = m :=
        Function.update_eq_self_iff.mpr (h.find_eq_none hfind).symm
      rw [hsame]
      exact ⟨rfl, h⟩
  | some target =>
    dsimp only
    cases hwrite : writeFdLink t pid fd target.toUTF8 with
    | none =>
      rw [if_pos ⟨by simp, h.write_eq_none_iff.mp hwrite⟩]
      exact ⟨rfl, h⟩
    | some t' =>
      rw [if_neg fun hfull => ?_]
      · exact ⟨rfl, h.write hwrite⟩
      · rw [h.write_eq_none_iff.mpr hfull.2] at hwrite
        cases hwrite

theorem Refines.inherit (h : Refines t m) (hm : m.Lawful) (procs : Processes)
    (parent child : Pid) :
    (inheritFdLinks procs t parent child).2 = (m.inherit procs parent child).2 ∧
      Refines (inheritFdLinks procs t parent child).1 (m.inherit procs parent child).1 := by
  unfold inheritFdLinks Map.inherit
  split
  · exact ⟨rfl, h⟩
  next hfind =>
  obtain ⟨links, hlinks, hnodup, hlength, hmem⟩ := h.linksOf parent
  have hshort : ((encoded links).any fun e => FD_LINK_TARGET_CAPACITY < e.2.size) = false := by
    rw [List.any_eq_false]
    intro e he
    obtain ⟨⟨fd, target⟩, hin, rfl⟩ := List.mem_map.mp he
    obtain ⟨-, -, hshort⟩ := hm parent fd target ((hmem fd target).mp hin)
    simpa [tooLong] using hshort
  have hlookup : ∀ fd, links.lookup fd = m (parent, fd) := by
    intro fd
    refine Option.ext fun target => ?_
    rw [← hmem]
    exact ⟨mem_of_lookup, lookup_of_mem hnodup⟩
  have hwritten := h.rewrite hnodup (procs.child_ne_zero hfind)
  rw [hlength] at hwritten
  rw [cloneFdLinks, hlinks, hshort, if_neg Bool.false_ne_true]
  split at hwritten
  · next hfull =>
    obtain ⟨t', hwrite, ht'⟩ := hwritten
    rw [hwrite, if_pos hfull]
    exact ⟨rfl, ht'⟩
  · next hroom =>
    obtain ⟨t', hwrite, ht'⟩ := hwritten
    simp only [hlookup] at ht'
    rw [hwrite, if_neg hroom]
    exact ⟨rfl, ht'⟩

theorem Refines.perform (h : Refines t m) (hm : m.Lawful) (e : Event) :
    (perform t e).2 = (m.act e).2 ∧ Refines (perform t e).1 (m.act e).1 := by
  obtain ⟨procs, call⟩ := e
  cases call with
  | replace pid links => exact h.replace procs pid links
  | set pid fd target => exact h.set procs pid fd target
  | inherit parent child => exact h.inherit hm procs parent child
  | gone pid => exact ⟨rfl, h.clear hm.forget_zero⟩

theorem fromUTF8_toUTF8 (s : String) : String.fromUTF8? s.toUTF8 = some s := by
  simp only [String.fromUTF8?, String.toUTF8_eq_toByteArray, dif_pos s.isValidUTF8]
  rfl

theorem Refines.fdLink (h : Refines t m) (hm : m.Lawful) (procs : Processes) (pid : Pid)
    (fd : Fd) : fdLink procs t pid fd = m.fdLink procs pid fd := by
  unfold FdLinks.fdLink Map.fdLink
  split
  · rfl
  split
  · rfl
  cases hfind : findFdLink t pid fd with
  | none => rw [h.find_eq_none hfind]
  | some i =>
    obtain ⟨bytes, hslot⟩ := findSlot_occupied hfind
    have hlookup := h.lookup (pid, fd)
    rw [h.chained.lookup_eq_some.mpr ⟨i, hslot⟩] at hlookup
    obtain ⟨target, htarget, rfl⟩ := Option.map_eq_some_iff.mp hlookup.symm
    have hshort : ¬FD_LINK_TARGET_CAPACITY < target.toUTF8.size := by
      simpa [tooLong] using (hm pid fd target htarget).2.2
    dsimp only
    rw [hslot, htarget]
    dsimp only
    rw [if_neg hshort, fromUTF8_toUTF8]

theorem Refines.fdLinks (h : Refines t m) (hm : m.Lawful) (procs : Processes) (pid : Pid) :
    m.Lists procs pid (fdLinks procs t pid) := by
  unfold Map.Lists FdLinks.fdLinks
  cases procs.find pid with
  | false => rfl
  | true =>
    obtain ⟨links, hlinks, hnodup, -, hmem⟩ := h.linksOf pid
    have hfds : (encoded links).map Prod.fst = links.map Prod.fst := by
      rw [encoded, List.map_map]
      rfl
    have hmem' : ∀ fd, fd ∈ links.map Prod.fst ↔ m (pid, fd) ≠ none := by
      intro fd
      rw [List.mem_map, Option.ne_none_iff_exists']
      constructor
      · rintro ⟨⟨fd', target⟩, hin, rfl⟩
        exact ⟨target, (hmem _ _).mp hin⟩
      · rintro ⟨target, hsome⟩
        exact ⟨(fd, target), (hmem fd target).mpr hsome, rfl⟩
    have hrange : ((links.map Prod.fst).any fun fd => 2 ^ 31 - 1 < fd.toNat) = false := by
      rw [List.any_eq_false]
      intro fd hin
      obtain ⟨target, hsome⟩ := Option.ne_none_iff_exists'.mp ((hmem' fd).mp hin)
      have hfd := (hm pid fd target hsome).2.1
      rw [BitVec.toInt_eq_toNat_cond] at hfd
      simp only [decide_eq_true_eq]
      split at hfd <;> omega
    rw [if_pos rfl, hlinks, hfds]
    dsimp only
    rw [hrange]
    refine ⟨_, rfl, ?_, fun fd => by rw [List.mem_mergeSort, hmem']⟩
    have htrans : ∀ a b c : Fd, decide (a.toInt ≤ b.toInt) → decide (b.toInt ≤ c.toInt) →
        decide (a.toInt ≤ c.toInt) := by
      simp only [decide_eq_true_eq]
      omega
    have htotal : ∀ a b : Fd, decide (a.toInt ≤ b.toInt) || decide (b.toInt ≤ a.toInt) := by
      simp only [Bool.or_eq_true, decide_eq_true_eq]
      omega
    have hsorted := List.pairwise_mergeSort htrans htotal (links.map Prod.fst)
    refine (hsorted.and ((List.mergeSort_perm _ _).nodup_iff.mpr hnodup)).imp ?_
    rintro a b ⟨hle, hne⟩
    have : a.toInt ≠ b.toInt := fun heq => hne (BitVec.eq_of_toInt_eq heq)
    simp only [decide_eq_true_eq] at hle
    omega

/-! ## Runs -/

/-- What is answered in a run. -/
def answers {σ : Type} (act : σ → Event → σ × Except FdLinkError Unit) :
    σ → List Event → List (Except FdLinkError Unit)
  | _, [] => []
  | s, e :: events => (act s e).2 :: answers act (act s e).1 events

/-- The state after a run. -/
def after {σ : Type} (act : σ → Event → σ × Except FdLinkError Unit) (s : σ)
    (events : List Event) : σ := run (fun s e => (act s e).1) s events

theorem Refines.run (h : Refines t m) (hm : m.Lawful) (events : List Event) :
    answers FdLinks.perform t events = answers Map.act m events ∧
      Refines (after FdLinks.perform t events) (after Map.act m events) ∧
      (after Map.act m events).Lawful := by
  induction events generalizing t m with
  | nil => exact ⟨rfl, h, hm⟩
  | cons e events ih =>
    obtain ⟨hanswer, hnext⟩ := h.perform hm e
    obtain ⟨hanswers, hrest⟩ := ih hnext (hm.act e)
    exact ⟨by rw [answers, answers, hanswer, hanswers], hrest⟩

/-- The table is a map from descriptors to targets, whatever calls are made. -/
theorem run_refines (events : List Event) :
    answers perform (fun _ => .empty) events = answers Map.act (fun _ => none) events ∧
      ∀ procs pid,
        (∀ fd, fdLink procs (after perform (fun _ => .empty) events) pid fd =
          (after Map.act (fun _ => none) events).fdLink procs pid fd) ∧
        (after Map.act (fun _ => none) events).Lists procs pid
          (fdLinks procs (after perform (fun _ => .empty) events) pid) := by
  have hempty : Refines (fun _ => .empty) fun _ => none := by
    refine ⟨.empty, fun k => Option.eq_none_iff_forall_ne_some.mpr fun v hv => ?_⟩
    obtain ⟨i, hi⟩ := (Chained.lookup_eq_some .empty).mp hv
    cases hi
  have hlawful : Map.Lawful fun _ => none := fun pid fd target hsome => by cases hsome
  obtain ⟨hanswers, hrefines, hafter⟩ := hempty.run hlawful events
  exact ⟨hanswers, fun procs pid =>
    ⟨hrefines.fdLink hafter procs pid, hrefines.fdLinks hafter procs pid⟩⟩

end Kinakaze.FdLinks
