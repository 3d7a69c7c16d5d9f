import Mathlib.Data.Finset.Basic
import Mathlib.Data.List.DropRight
import Kinakaze.Library.Bitmap

/-!
# The sparse descriptor table

Descriptors are kept in pages of 64, and pages in branches of 64.  A page has a
bitmap of its occupied slots and one of its reserved slots.  A page whose
bitmaps are both empty is dropped.
-/

namespace Kinakaze.FdSlots

open Library.Bitmap

abbrev WIDTH : Nat := 64
abbrev BRANCH_SIZE : Nat := WIDTH * WIDTH
abbrev MAX_FDS : Nat := 1024 * 1024

variable {FdEntry : Type}

/-- A page's bitmap of occupied slots agrees with its entries. -/
structure Page (FdEntry : Type) where
  entries : Fin WIDTH → Option FdEntry
  used : BitVec WIDTH
  reserved : BitVec WIDTH
  used_exact : ∀ i : Fin WIDTH, used.getLsbD i = (entries i).isSome

structure Branch (FdEntry : Type) where
  pages : Fin WIDTH → Option (Page FdEntry)

structure Slots (FdEntry : Type) where
  branches : List (Option (Branch FdEntry))
  firstFree : Nat

/-- `Slots::default()` -/
def Slots.default : Slots FdEntry := ⟨[], 0⟩

/-- `fd % WIDTH` -/
def slot (fd : Nat) : Fin WIDTH := ⟨fd % WIDTH, Nat.mod_lt fd (by decide)⟩

/-- `fd / WIDTH % WIDTH` -/
def leaf (fd : Nat) : Fin WIDTH := ⟨fd / WIDTH % WIDTH, Nat.mod_lt _ (by decide)⟩

def Page.empty : Page FdEntry where
  entries := fun _ => none
  used := 0
  reserved := 0
  used_exact := by
    intro i
    simp

def Page.occupy (page : Page FdEntry) (fd : Nat) (entry : FdEntry) : Page FdEntry where
  entries := Function.update page.entries (slot fd) (some entry)
  used := page.used ||| bit WIDTH (fd % WIDTH)
  reserved := page.reserved
  used_exact := by
    intro i
    rw [getLsbD_set (Nat.mod_lt fd (by decide)), page.used_exact, Function.update_apply]
    by_cases hi : i = slot fd
    · simp [hi, slot]
    · have hval : (i : Nat) ≠ fd % WIDTH := fun h => hi (Fin.ext h)
      simp [hi, hval]

def Page.vacate (page : Page FdEntry) (fd : Nat) : Page FdEntry where
  entries := Function.update page.entries (slot fd) none
  used := page.used &&& ~~~bit WIDTH (fd % WIDTH)
  reserved := page.reserved
  used_exact := by
    intro i
    rw [getLsbD_clear (Nat.mod_lt fd (by decide)) _ i.isLt, page.used_exact, Function.update_apply]
    by_cases hi : i = slot fd
    · simp [hi, slot]
    · have hval : (i : Nat) ≠ fd % WIDTH := fun h => hi (Fin.ext h)
      simp [hi, hval]

/-- Page `fd / WIDTH`, when it is allocated. -/
def Slots.page (s : Slots FdEntry) (fd : Nat) : Option (Page FdEntry) := do
  let branch ← (← s.branches[fd / BRANCH_SIZE]?)
  branch.pages (leaf fd)

/-- The page that `ensure_page` hands out, a new one where none is allocated.
A number outside the table has no result: the assertion fails. -/
def Slots.ensurePage (s : Slots FdEntry) (fd : Nat) : Option (Page FdEntry) :=
  if fd < MAX_FDS then some ((s.page fd).getD Page.empty) else none

/-- What is written through the reference that `ensure_page` or `page_mut` hands out. -/
def Slots.putPage (s : Slots FdEntry) (fd : Nat) (page : Page FdEntry) : Slots FdEntry :=
  let index := fd / BRANCH_SIZE
  let branches := s.branches ++ List.replicate (index + 1 - s.branches.length) none
  let branch := (branches[index]?.join).getD ⟨fun _ => none⟩
  { s with branches :=
      branches.set index (some ⟨Function.update branch.pages (leaf fd) (some page)⟩) }

def Slots.get (s : Slots FdEntry) (fd : Nat) : Option (Option FdEntry) :=
  if fd ≥ MAX_FDS then none
  else some (match s.page fd with
    | none => none
    | some page => page.entries (slot fd))

def Slots.findFree (s : Slots FdEntry) (floor ceiling : Nat) : Option Nat :=
  go floor (min ceiling MAX_FDS)
where
  go (floor ceiling : Nat) : Option Nat :=
    if floor < ceiling then
      match s.page floor with
      | none => some floor
      | some page =>
        let available := fromBit (~~~(page.used ||| page.reserved)) (floor % WIDTH)
        if available ≠ 0 then
          let fd := floor / WIDTH * WIDTH + available.ctz.toNat
          if fd < ceiling then some fd else none
        else go ((floor / WIDTH + 1) * WIDTH) ceiling
    else none
  termination_by ceiling - floor
  decreasing_by simp only [WIDTH]; omega

def Slots.firstFreeBetween (s : Slots FdEntry) (floor ceiling : Nat) : Option Nat :=
  s.findFree (max floor s.firstFree) ceiling

def Slots.advance (s : Slots FdEntry) (fd : Nat) : Slots FdEntry :=
  if s.firstFree = fd then
    { s with firstFree := (s.findFree (fd + 1) MAX_FDS).getD MAX_FDS }
  else s

/-- A page that is neither used nor reserved is freed. -/
def Branch.freePage (branch : Branch FdEntry) (i : Fin WIDTH) : Branch FdEntry :=
  if (branch.pages i).any (fun p => decide (p.used ||| p.reserved = 0)) then
    ⟨Function.update branch.pages i none⟩
  else branch

def Slots.reclaim (s : Slots FdEntry) (fd : Nat) : Slots FdEntry :=
  match s.branches[fd / BRANCH_SIZE]?.join with
  | none => s
  | some branch =>
    let branch := branch.freePage (leaf fd)
    if (List.finRange WIDTH).all (fun i => (branch.pages i).isNone) then
      { s with branches :=
          (s.branches.set (fd / BRANCH_SIZE) none).rdropWhile (fun b => b.isNone) }
    else { s with branches := s.branches.set (fd / BRANCH_SIZE) (some branch) }

def Slots.insert (s : Slots FdEntry) (fd : Nat) (entry : FdEntry) : Option (Slots FdEntry) := do
  let page ← s.ensurePage fd
  return (s.putPage fd (page.occupy fd entry)).advance fd

/-- `first_free` goes down to a number whose other bitmap does not hold it. -/
def Slots.lower (s : Slots FdEntry) (fd : Nat) (other : BitVec WIDTH) : Slots FdEntry :=
  if other &&& bit WIDTH (fd % WIDTH) = 0 then { s with firstFree := min s.firstFree fd } else s

def Slots.remove (s : Slots FdEntry) (fd : Nat) : Option FdEntry × Slots FdEntry :=
  match s.page fd with
  | none => (none, s)
  | some page =>
    match page.entries (slot fd) with
    | none => (none, s)
    | some entry =>
      let s := (s.putPage fd (page.vacate fd)).lower fd page.reserved
      (some entry, s.reclaim fd)

/-- A slot that is occupied or reserved has no result: the assertion fails. -/
def Slots.reserve (s : Slots FdEntry) (fd : Nat) : Option (Slots FdEntry) := do
  let page ← s.ensurePage fd
  if (page.used ||| page.reserved) &&& bit WIDTH (fd % WIDTH) = 0 then
    let reserved := page.reserved ||| bit WIDTH (fd % WIDTH)
    return (s.putPage fd { page with reserved }).advance fd
  else none

def Slots.isReserved (s : Slots FdEntry) (fd : Nat) : Bool :=
  (s.page fd).any (fun p => decide (p.reserved &&& bit WIDTH (fd % WIDTH) ≠ 0))

def Slots.unreserve (s : Slots FdEntry) (fd : Nat) : Slots FdEntry :=
  match s.page fd with
  | none => s
  | some page =>
    let reserved := page.reserved &&& ~~~bit WIDTH (fd % WIDTH)
    ((s.putPage fd { page with reserved }).lower fd page.used).reclaim fd

/-- A page without its reservations, dropped when nothing is left. -/
def Page.cleared (page : Page FdEntry) : Option (Page FdEntry) :=
  if page.used = 0 then none else some { page with reserved := 0 }

def Slots.clearReservations (s : Slots FdEntry) : Slots FdEntry :=
  let branches := s.branches.map (Option.map fun b => ⟨fun i => (b.pages i).bind Page.cleared⟩)
  let s := { s with branches }
  { s with firstFree := (s.findFree 0 MAX_FDS).getD MAX_FDS }

def Page.enumerated (page : Page FdEntry) (base : Nat) : List (Nat × Option FdEntry) :=
  (List.finRange WIDTH).map fun k => (base + k.val, page.entries k)

def Branch.enumerated (branch : Branch FdEntry) (base : Nat) : List (Nat × Option FdEntry) :=
  (List.finRange WIDTH).flatMap fun j =>
    match branch.pages j with
    | none => []
    | some page => page.enumerated (base + j.val * WIDTH)

/-- Every slot of every allocated page, with its descriptor number. -/
def Slots.enumerated (s : Slots FdEntry) : List (Nat × Option FdEntry) :=
  s.branches.zipIdx.flatMap fun (branch, i) =>
    match branch with
    | none => []
    | some branch => branch.enumerated (i * BRANCH_SIZE)

/-- The occupied descriptors, as the callers filter them. -/
def Slots.occupied (s : Slots FdEntry) : List (Nat × FdEntry) :=
  s.enumerated.filterMap fun (fd, entry) => entry.map fun entry => (fd, entry)

end Kinakaze.FdSlots
