import Kinakaze.Library.Spans

/-!
# Copying sparse memory

The bytes of a fresh private region are read block by block.  Blocks of zeros are passed over, the
pages of zeros at either end of a block are trimmed, and what lies close together is handed over in
one call.
-/

namespace Kinakaze.Fork

open Kinakaze.Library

abbrev Byte := BitVec 8

/-- The frozen memory a copier may read.  A region ends below `2 ^ 64`, so that addresses in it are
natural numbers. -/
structure Region where
  base : Nat
  content : List Byte

/-- The byte at an address; reading any other address faults. -/
def Region.read (memory : Region) (address : Nat) : Option Byte :=
  if address < memory.base then none else memory.content[address - memory.base]?

/-! ## Zero bytes -/

def loadu (memory : Region) (p : Nat) : Option (List Byte) :=
  (List.range 16).mapM fun lane => memory.read (p + lane)

def or128 (a b : List Byte) : List Byte := List.zipWith (· ||| ·) a b

def cmpeqZero (v : List Byte) : List Byte := v.map fun lane => if lane = 0 then 0xff else 0

/-- The top bits of the lanes, the first one lowest. -/
def movemask : List Byte → Nat
  | [] => 0
  | lane :: rest => lane.toNat / 128 + 2 * movemask rest

/-- The last loop of `zero`, byte by byte. -/
def zeroBytes (memory : Region) (bytes length : Nat) : Nat → Nat → Option Bool
  | 0, _ => none
  | fuel + 1, offset =>
    if offset < length then
      match memory.read (bytes + offset) with
      | none => none
      | some byte => if byte ≠ 0 then some false else zeroBytes memory bytes length fuel (offset + 1)
    else some true

/-- The first loop of `zero`, 64 bytes at a time. -/
def zeroVectors (memory : Region) (bytes length : Nat) : Nat → Nat → Option Bool
  | 0, _ => none
  | fuel + 1, offset =>
    if length - offset ≥ 64 then
      let p := bytes + offset
      match loadu memory p, loadu memory (p + 16), loadu memory (p + 32), loadu memory (p + 48) with
      | some a, some b, some c, some d =>
        let value := or128 (or128 a b) (or128 c d)
        if movemask (cmpeqZero value) ≠ 0xffff then some false
        else zeroVectors memory bytes length fuel (offset + 64)
      | _, _, _, _ => none
    else zeroBytes memory bytes length (length + 1) offset

def zero (memory : Region) (bytes length : Nat) : Option Bool :=
  zeroVectors memory bytes length (length + 1) 0

/-! ## The copier -/

def BLOCK : Nat := 64 * 1024

def PAGE : Nat := 4096

/-- The loop over the pages of zeros at the start of a block. -/
def trimStart (memory : Region) (block len : Nat) : Nat → Nat → Option Nat
  | 0, _ => none
  | fuel + 1, first =>
    if first + PAGE ≤ len then
      match zero memory (block + first) PAGE with
      | none => none
      | some true => trimStart memory block len fuel (first + PAGE)
      | some false => some first
    else some first

/-- The loop over the pages of zeros at the end of a block. -/
def trimEnd (memory : Region) (block first : Nat) : Nat → Nat → Option Nat
  | 0, _ => none
  | fuel + 1, last =>
    if last > first then
      let page := (last - 1) / PAGE * PAGE
      match zero memory (block + page) (last - page) with
      | none => none
      | some false => some last
      | some true => trimEnd memory block first fuel page
    else some last

section Copy

variable {σ ε : Type}

/-- One call of the callback, and what follows it unless it fails. -/
def handOver (copy : Nat → Nat → σ → Except ε Unit × σ) (start length : Nat) (s : σ)
    (next : σ → Option (Except ε (Nat × Nat) × σ)) : Option (Except ε (Nat × Nat) × σ) :=
  match copy start length s with
  | (.error e, s') => some (.error e, s')
  | (.ok (), s') => next s'

def sparseLoop (memory : Region) (source length : Nat) (copy : Nat → Nat → σ → Except ε Unit × σ) :
    Nat → Option Nat → Nat → Nat → Nat × Nat → σ → Option (Except ε (Nat × Nat) × σ)
  | 0, _, _, _, _, _ => none
  | fuel + 1, start, stop, offset, (copied, calls), s =>
    if offset < length then
      let len := min BLOCK (length - offset)
      match zero memory (source + offset) len with
      | none => none
      | some true =>
        sparseLoop memory source length copy fuel start stop (offset + len) (copied, calls) s
      | some false =>
        match trimStart memory (source + offset) len (len + 1) 0 with
        | none => none
        | some first =>
          match trimEnd memory (source + offset) first (len + 1) len with
          | none => none
          | some last =>
            let begin := offset + first
            match start with
            | some previous =>
              if begin - stop ≥ 2 * BLOCK then
                handOver copy previous (stop - previous) s fun s' =>
                  sparseLoop memory source length copy fuel (some begin) (offset + last)
                    (offset + len) (copied + (stop - previous), calls + 1) s'
              else
                sparseLoop memory source length copy fuel (some previous) (offset + last)
                  (offset + len) (copied, calls) s
            | none =>
              sparseLoop memory source length copy fuel (some begin) (offset + last) (offset + len)
                (copied, calls) s
    else
      match start with
      | some begin =>
        handOver copy begin (stop - begin) s fun s' =>
          some (.ok (copied + (stop - begin), calls + 1), s')
      | none => some (.ok (copied, calls), s)

/-- `sparse_copy::copy`; `none` is a fault. -/
def sparseCopy (memory : Region) (source length : Nat)
    (copy : Nat → Nat → σ → Except ε Unit × σ) (s : σ) : Option (Except ε (Nat × Nat) × σ) :=
  sparseLoop memory source length copy (length + 1) none 0 0 (0, 0) s

end Copy

/-! ## What is found to be zero -/

section Zero

variable {memory : Region} {bytes length : Nat} {f : Nat → Byte}

theorem zeroBytes_spec (h : ∀ i < length, memory.read (bytes + i) = some (f i)) (fuel offset : Nat)
    (hfuel : length - offset < fuel) : ∃ b, zeroBytes memory bytes length fuel offset = some b ∧
      (b = true ↔ ∀ i, offset ≤ i → i < length → f i = 0) := by
  induction fuel generalizing offset with
  | zero => omega
  | succ fuel ih =>
    unfold zeroBytes
    by_cases hoffset : offset < length
    · rw [if_pos hoffset, h offset hoffset]
      dsimp only
      by_cases hbyte : f offset = 0
      · obtain ⟨b, hrun, hb⟩ := ih (offset + 1) (by omega)
        refine ⟨b, ?_, ?_⟩
        · rw [if_neg (not_not.mpr hbyte), hrun]
        · rw [hb]
          refine ⟨fun hall i hge hlt => ?_, fun hall i hge hlt => hall i (by omega) hlt⟩
          rcases Nat.eq_or_lt_of_le hge with rfl | hmore
          · exact hbyte
          · exact hall i hmore hlt
      · refine ⟨false, if_pos hbyte, ?_⟩
        exact ⟨fun hfalse => (nomatch hfalse),
          fun hall => absurd (hall offset (Nat.le_refl _) hoffset) hbyte⟩
    · rw [if_neg hoffset]
      exact ⟨true, rfl, fun _ i hge hlt => by omega, fun _ => rfl⟩

theorem loadu_spec {p : Nat} {g : Nat → Byte}
    (h : ∀ lane < 16, memory.read (p + lane) = some (g lane)) :
    loadu memory p = some ((List.range 16).map g) := by
  have hlanes : ∀ lanes : List Nat, (∀ lane ∈ lanes, lane < 16) →
      lanes.mapM (fun lane => memory.read (p + lane)) = some (lanes.map g) := by
    intro lanes hlanes
    induction lanes with
    | nil => rfl
    | cons lane rest ih =>
      obtain ⟨hlane, hrest⟩ := List.forall_mem_cons.mp hlanes
      simp [h lane hlane, ih hrest]
  exact hlanes _ fun lane hlane => List.mem_range.mp hlane

theorem movemask_lt (v : List Byte) : movemask v < 2 ^ v.length := by
  induction v with
  | nil => exact Nat.one_pos
  | cons lane rest ih =>
    have hlane := lane.isLt
    rw [movemask, List.length_cons, Nat.pow_succ]
    generalize 2 ^ rest.length = bound at ih ⊢
    omega

theorem movemask_cmpeqZero (v : List Byte) :
    movemask (cmpeqZero v) = 2 ^ v.length - 1 ↔ ∀ lane ∈ v, lane = 0 := by
  induction v with
  | nil => simp [cmpeqZero, movemask]
  | cons lane rest ih =>
    have hrest := movemask_lt (cmpeqZero rest)
    have hlength : (cmpeqZero rest).length = rest.length := List.length_map _
    rw [hlength] at hrest
    rw [List.forall_mem_cons, ← ih]
    unfold cmpeqZero
    rw [List.map_cons, movemask, List.length_cons, Nat.pow_succ]
    change _ + 2 * movemask (cmpeqZero rest) = _ ↔ _ ∧ movemask (cmpeqZero rest) = _
    generalize 2 ^ rest.length = bound at hrest ⊢
    by_cases hlane : lane = 0
    · rw [if_pos hlane]
      simp only [hlane, true_and]
      change 1 + _ = _ ↔ _
      omega
    · rw [if_neg hlane]
      simp only [hlane, false_and, iff_false]
      change ¬ (0 + _ = _)
      omega

theorem or_eq_zero {a b : Byte} : a ||| b = 0 ↔ a = 0 ∧ b = 0 := BitVec.or_eq_zero_iff

theorem lanes_zero (g : Nat → Byte) :
    (∀ lane ∈ or128 (or128 ((List.range 16).map g) ((List.range 16).map fun i => g (i + 16)))
      (or128 ((List.range 16).map fun i => g (i + 32)) ((List.range 16).map fun i => g (i + 48))),
      lane = 0) ↔ ∀ i < 64, g i = 0 := by
  unfold or128
  simp only [List.zipWith_map, List.zipWith_self, List.mem_map, List.mem_range,
    forall_exists_index, and_imp, forall_apply_eq_imp_iff₂, or_eq_zero]
  constructor
  · intro h i hi
    obtain ⟨⟨h₀, h₁⟩, h₂, h₃⟩ := h (i % 16) (by omega)
    rcases (by omega : i = i % 16 ∨ i = i % 16 + 16 ∨ i = i % 16 + 32 ∨ i = i % 16 + 48) with
      hi' | hi' | hi' | hi' <;> rw [hi']
    · exact h₀
    · exact h₁
    · exact h₂
    · exact h₃
  · exact fun h i hi => ⟨⟨h i (by omega), h _ (by omega)⟩, h _ (by omega), h _ (by omega)⟩

theorem zeroVectors_spec (h : ∀ i < length, memory.read (bytes + i) = some (f i))
    (fuel offset : Nat)
    (hfuel : length - offset < fuel) : ∃ b, zeroVectors memory bytes length fuel offset = some b ∧
      (b = true ↔ ∀ i, offset ≤ i → i < length → f i = 0) := by
  induction fuel generalizing offset with
  | zero => omega
  | succ fuel ih =>
    unfold zeroVectors
    by_cases hoffset : length - offset ≥ 64
    · rw [if_pos hoffset]
      dsimp only
      have hload : ∀ shift ≤ 48, loadu memory (bytes + offset + shift) =
          some ((List.range 16).map fun i => f (offset + (i + shift))) := by
        refine fun shift hshift => loadu_spec fun lane hlane => ?_
        rw [← h _ (by omega)]
        congr 1
        omega
      have hvalue := lanes_zero fun i => f (offset + i)
      have hmask := movemask_cmpeqZero (or128 (or128 ((List.range 16).map fun i => f (offset + i))
          ((List.range 16).map fun i => f (offset + (i + 16))))
        (or128 ((List.range 16).map fun i => f (offset + (i + 32)))
          ((List.range 16).map fun i => f (offset + (i + 48)))))
      rw [hvalue] at hmask
      have hzero := hload 0 (by omega)
      rw [Nat.add_zero] at hzero
      rw [hzero, hload 16 (by omega), hload 32 (by omega), hload 48 (by omega)]
      dsimp only
      have hlength : (or128 (or128 ((List.range 16).map fun i => f (offset + i))
          ((List.range 16).map fun i => f (offset + (i + 16))))
        (or128 ((List.range 16).map fun i => f (offset + (i + 32)))
          ((List.range 16).map fun i => f (offset + (i + 48))))).length = 16 := by
        simp [or128]
      rw [hlength] at hmask
      by_cases hall : ∀ i < 64, f (offset + i) = 0
      · obtain ⟨b, hrun, hb⟩ := ih (offset + 64) (by omega)
        refine ⟨b, (if_neg (not_not.mpr (hmask.mpr hall))).trans hrun, ?_⟩
        rw [hb]
        refine ⟨fun hlater i hge hlt => ?_, fun hmore i hge hlt => hmore i (by omega) hlt⟩
        by_cases hi : i < offset + 64
        · obtain ⟨j, rfl⟩ := Nat.exists_eq_add_of_le hge
          exact hall j (by omega)
        · exact hlater i (Nat.le_of_not_lt hi) hlt
      · refine ⟨false, if_pos fun hone => hall (hmask.mp hone), fun hfalse => (nomatch hfalse), fun hmore => ?_⟩
        exact absurd (fun i hi => hmore (offset + i) (Nat.le_add_right _ _) (by omega)) hall
    · rw [if_neg hoffset]
      exact zeroBytes_spec h _ _ (by omega)

theorem zero_spec (h : ∀ i < length, memory.read (bytes + i) = some (f i)) :
    ∃ b, zero memory bytes length = some b ∧ (b = true ↔ ∀ i < length, f i = 0) := by
  obtain ⟨b, hrun, hb⟩ := zeroVectors_spec h (length + 1) 0 (by omega)
  exact ⟨b, hrun, by simpa using hb⟩

/-! ## Trimming a block -/

variable {block len : Nat}

section

variable (h : ∀ i < len, memory.read (block + i) = some (f i))
include h

theorem trimStart_spec (fuel first : Nat)
    (hfuel : len - first < fuel) (hfirst : first ≤ len) (hpage : first % PAGE = 0)
    (hbefore : ∀ i < first, f i = 0) : ∃ r, trimStart memory block len fuel first = some r ∧
      r ≤ len ∧ r % PAGE = 0 ∧ ∀ i < r, f i = 0 := by
  unfold PAGE at hpage ⊢
  induction fuel generalizing first with
  | zero => omega
  | succ fuel ih =>
    unfold trimStart PAGE
    by_cases hroom : first + 4096 ≤ len
    · have hread : ∀ i < 4096, memory.read (block + first + i) = some (f (first + i)) := by
        intro i hi
        rw [Nat.add_assoc]
        exact h _ (by omega)
      obtain ⟨b, hzero, hb⟩ := zero_spec hread
      rw [if_pos hroom, hzero]
      cases b with
      | false => exact ⟨first, rfl, hfirst, hpage, hbefore⟩
      | true =>
        refine ih (first + 4096) (by omega) hroom (by omega) fun i hi => ?_
        by_cases hlow : i < first
        · exact hbefore i hlow
        · obtain ⟨j, rfl⟩ := Nat.exists_eq_add_of_le (Nat.le_of_not_lt hlow)
          exact hb.mp rfl j (by omega)
    · rw [if_neg hroom]
      exact ⟨first, rfl, hfirst, hpage, hbefore⟩

theorem trimEnd_spec {first : Nat}
    (hpage : first % PAGE = 0) (hbefore : ∀ i < first, f i = 0) (hnonzero : ∃ i < len, f i ≠ 0)
    (fuel last : Nat) (hfuel : last - first < fuel) (hlast : last ≤ len)
    (hafter : ∀ i, last ≤ i → i < len → f i = 0) :
    ∃ r, trimEnd memory block first fuel last = some r ∧
      first < r ∧ r ≤ len ∧ ∀ i, r ≤ i → i < len → f i = 0 := by
  unfold PAGE at hpage
  induction fuel generalizing last with
  | zero => omega
  | succ fuel ih =>
    unfold trimEnd PAGE
    by_cases hmore : last > first
    · rw [if_pos hmore]
      dsimp only
      generalize hstart : (last - 1) / 4096 * 4096 = page
      have hread : ∀ i < last - page, memory.read (block + page + i) = some (f (page + i)) := by
        intro i hi
        rw [Nat.add_assoc]
        exact h _ (by omega)
      obtain ⟨b, hzero, hb⟩ := zero_spec hread
      rw [hzero]
      cases b with
      | false => exact ⟨last, rfl, hmore, hlast, hafter⟩
      | true =>
        refine ih page (by omega) (by omega) fun i hge hlt => ?_
        by_cases hlow : i < last
        · obtain ⟨j, rfl⟩ := Nat.exists_eq_add_of_le hge
          exact hb.mp rfl j (by omega)
        · exact hafter i (Nat.le_of_not_lt hlow) hlt
    · -- nothing would be left of the block
      obtain ⟨i, hi, hne⟩ := hnonzero
      rcases Nat.lt_or_ge i first with hlow | hge
      · exact absurd (hbefore i hlow) hne
      · exact absurd (hafter i (by omega) hi) hne

theorem block_spec : (zero memory block len = some true ∧ ∀ i < len, f i = 0) ∨
    (zero memory block len = some false ∧ ∃ first last,
      trimStart memory block len (len + 1) 0 = some first ∧
      trimEnd memory block first (len + 1) len = some last ∧ first < last ∧ last ≤ len ∧
      (∀ i < first, f i = 0) ∧ ∀ i, last ≤ i → i < len → f i = 0) := by
  obtain ⟨b, hzero, hb⟩ := zero_spec h
  cases b with
  | true => exact .inl ⟨hzero, hb.mp rfl⟩
  | false =>
    have hnonzero : ∃ i < len, f i ≠ 0 := by
      by_contra hnone
      push Not at hnone
      exact absurd (hb.mpr hnone) Bool.false_ne_true
    obtain ⟨first, hfirst, -, hpage, hbefore⟩ := trimStart_spec h (len + 1) 0 (by omega)
      (Nat.zero_le _) (Nat.zero_mod _) fun i hi => absurd hi (Nat.not_lt_zero i)
    obtain ⟨last, hlast, horder, hlen, hafter⟩ := trimEnd_spec h hpage hbefore hnonzero (len + 1) len
      (by omega) (Nat.le_refl _) fun i hge hlt => absurd hlt (Nat.not_lt.mpr hge)
    exact .inr ⟨hzero, first, last, hfirst, hlast, horder, hlen, hbefore, hafter⟩

end

end Zero

/-! ## One turn of the loop -/

section Turn

variable {σ ε : Type} {memory : Region} {source length fuel stop offset len first last : Nat}
  {start : Option Nat}

theorem sparseLoop_zero (hmore : offset < length) (hlen : min BLOCK (length - offset) = len)
    (hzero : zero memory (source + offset) len = some true)
    (copy : Nat → Nat → σ → Except ε Unit × σ) (counts : Nat × Nat) (s : σ) :
    sparseLoop memory source length copy (fuel + 1) start stop offset counts s =
      sparseLoop memory source length copy fuel start stop (offset + len) counts s := by
  conv_lhs => unfold sparseLoop
  rw [if_pos hmore, hlen]
  dsimp only
  rw [hzero]

theorem sparseLoop_data (hmore : offset < length) (hlen : min BLOCK (length - offset) = len)
    (hzero : zero memory (source + offset) len = some false)
    (hfirst : trimStart memory (source + offset) len (len + 1) 0 = some first)
    (hlast : trimEnd memory (source + offset) first (len + 1) len = some last)
    (copy : Nat → Nat → σ → Except ε Unit × σ) (counts : Nat × Nat) (s : σ) :
    sparseLoop memory source length copy (fuel + 1) start stop offset counts s = match start with
      | some previous =>
        if offset + first - stop ≥ 2 * BLOCK then
          handOver copy previous (stop - previous) s fun s' =>
            sparseLoop memory source length copy fuel (some (offset + first)) (offset + last)
              (offset + len) (counts.1 + (stop - previous), counts.2 + 1) s'
        else
          sparseLoop memory source length copy fuel (some previous) (offset + last) (offset + len)
            counts s
      | none =>
        sparseLoop memory source length copy fuel (some (offset + first)) (offset + last)
          (offset + len) counts s := by
  conv_lhs => unfold sparseLoop
  rw [if_pos hmore, hlen]
  dsimp only
  rw [hzero]
  dsimp only
  rw [hfirst]
  dsimp only
  rw [hlast]

end Turn

/-! ## The spans it hands over -/

theorem handOver_performs {σ ε : Type} {copy : Nat → Nat → σ → Except ε Unit × σ}
    {start length : Nat} {rest : List Span} {counts : Nat × Nat}
    {next : σ → Option (Except ε (Nat × Nat) × σ)}
    (h : ∀ s, next s = some (performs copy rest (counts.1 + length, counts.2 + 1) s)) (s : σ) :
    handOver copy start length s next = some (performs copy ((start, length) :: rest) counts s) := by
  unfold handOver
  rw [performs_cons]
  rcases copy start length s with ⟨_ | _, s'⟩
  · rfl
  · exact h s'

/-- The run of the loop, from its start to its end so far. -/
def runOf (start : Option Nat) (stop : Nat) : Option (Nat × Nat) := start.map fun begin => (begin, stop)

theorem sparseLoop_spans {memory : Region} {source length : Nat} {f : Nat → Byte}
    (h : ∀ i < length, memory.read (source + i) = some (f i)) (fuel : Nat) (start : Option Nat)
    (stop offset : Nat) (hfuel : length - offset < fuel) (hoffset : offset ≤ length)
    (hrun : RunTo (f · ≠ 0) offset (runOf start stop)) :
    ∃ spans, SpansFrom (f · ≠ 0) offset length (runOf start stop) spans ∧
      ∀ {σ ε : Type} (copy : Nat → Nat → σ → Except ε Unit × σ) (counts : Nat × Nat) (s : σ),
        sparseLoop memory source length copy fuel start stop offset counts s =
          some (performs copy spans counts s) := by
  induction fuel generalizing start stop offset with
  | zero => omega
  | succ fuel ih =>
    by_cases hmore : offset < length
    · have hblock : 0 < BLOCK := by decide
      generalize hlen : min BLOCK (length - offset) = len
      have hread : ∀ i < len, memory.read (source + offset + i) = some (f (offset + i)) := by
        intro i hi
        rw [Nat.add_assoc]
        exact h _ (by omega)
      rcases block_spec hread with ⟨hzero, hall⟩ |
        ⟨hzero, first, last, hfirst, hlast, horder, hlastLen, hbefore, hafter⟩
      · have hnone : ∀ place, offset ≤ place → place < offset + len → ¬ f place ≠ 0 := by
          intro place hge hlt
          obtain ⟨j, rfl⟩ := Nat.exists_eq_add_of_le hge
          exact not_not.mpr (hall j (by omega))
        obtain ⟨spans, hspans, hcopy⟩ := ih start stop (offset + len) (by omega) (by omega)
          (hrun.mono (Nat.le_add_right _ _) hnone)
        refine ⟨spans, hspans.skip (Nat.le_add_right _ _) hnone, fun copy counts s => ?_⟩
        rw [sparseLoop_zero hmore hlen hzero]
        exact hcopy copy counts s
      have hleft : ∀ place, offset ≤ place → place < offset + first → ¬ f place ≠ 0 := by
        intro place hge hlt
        obtain ⟨j, rfl⟩ := Nat.exists_eq_add_of_le hge
        exact not_not.mpr (hbefore j (by omega))
      have hright : ∀ place, offset + last ≤ place → place < offset + len → ¬ f place ≠ 0 := by
        intro place hge hlt
        obtain ⟨j, rfl⟩ := Nat.exists_eq_add_of_le (by omega : offset ≤ place)
        exact not_not.mpr (hafter j (by omega) (by omega))
      -- the loop goes on with a run that ends where the block's last page does
      have hnext := fun begin (hbegin : begin < offset + last) =>
        ih (some begin) (offset + last) (offset + len) (by omega) (by omega) fun from' to' hsame => by
          obtain ⟨rfl, rfl⟩ := Prod.mk.inj (Option.some.inj hsame)
          exact ⟨hbegin, by omega, hright⟩
      cases start with
      | none =>
        obtain ⟨spans, hspans, hcopy⟩ := hnext (offset + first) (by omega)
        refine ⟨spans, SpansFrom.opened hspans (Nat.le_add_right _ _) hleft, fun copy counts s => ?_⟩
        rw [sparseLoop_data hmore hlen hzero hfirst hlast]
        exact hcopy copy counts s
      | some previous =>
        obtain ⟨hprevious, hstop, -⟩ := hrun previous stop rfl
        by_cases hgap : offset + first - stop ≥ 2 * BLOCK
        · obtain ⟨spans, hspans, hcopy⟩ := hnext (offset + first) (by omega)
          refine ⟨(previous, stop - previous) :: spans, SpansFrom.close hrun (Nat.le_refl _) hoffset
            (fun place hge hlt => absurd hlt (Nat.not_lt.mpr hge))
            (SpansFrom.opened hspans (Nat.le_add_right _ _) hleft), fun copy counts s => ?_⟩
          rw [sparseLoop_data hmore hlen hzero hfirst hlast]
          dsimp only
          rw [if_pos hgap]
          exact handOver_performs (fun s' => hcopy copy _ s') s
        · obtain ⟨spans, hspans, hcopy⟩ := hnext previous (by omega)
          refine ⟨spans, SpansFrom.extend hspans (by omega), fun copy counts s => ?_⟩
          rw [sparseLoop_data hmore hlen hzero hfirst hlast]
          dsimp only
          rw [if_neg hgap]
          exact hcopy copy counts s
    · obtain rfl : offset = length := Nat.le_antisymm hoffset (Nat.le_of_not_lt hmore)
      have hend : Spans (f · ≠ 0) offset offset [] :=
        .nil fun place hge hlt => absurd hlt (Nat.not_lt.mpr hge)
      cases start with
      | none =>
        refine ⟨[], hend, fun copy counts s => ?_⟩
        unfold sparseLoop
        rw [if_neg hmore]
        rfl
      | some begin =>
        refine ⟨[(begin, stop - begin)], SpansFrom.close hrun (Nat.le_refl _) (Nat.le_refl _)
          (fun place hge hlt => absurd hlt (Nat.not_lt.mpr hge)) hend, fun copy counts s => ?_⟩
        unfold sparseLoop
        rw [if_neg hmore]
        exact @handOver_performs _ _ _ _ _ [] _ _ (fun s' => rfl) s

theorem sparseCopy_copiesAll (memory : Region) : ∃ spans,
    CopiesAll (fun offset => memory.content.getD offset 0) (fun _ => 0) 0 memory.content.length id
      (fun copy s => sparseCopy memory memory.base memory.content.length copy s) spans := by
  have hread : ∀ i < memory.content.length,
      memory.read (memory.base + i) = some (memory.content.getD i 0) := by
    intro i hi
    unfold Region.read
    rw [if_neg (by omega), Nat.add_sub_cancel_left, List.getD_eq_getElem?_getD,
      List.getElem?_eq_getElem hi, Option.getD_some]
  obtain ⟨spans, hspans, hcopy⟩ := sparseLoop_spans hread (memory.content.length + 1) none 0 0
    (by omega) (Nat.zero_le _) (runTo_none 0)
  refine ⟨spans, copiesAll_of_spans hspans fun copy s => ?_⟩
  unfold sparseCopy
  rw [hcopy, performs_map_id]

end Kinakaze.Fork
