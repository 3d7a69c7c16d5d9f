import Kinakaze.Verity.Builder

/-!
# What the levels hold while the tree is built

A level has been given some hashes. The rows that are full were written, and the level above has
been given what they make; what is left is in the buffer.
-/

namespace Kinakaze.Verity

open Library Shape

/-- A level that was given `hashes` and has written `count` blocks. -/
structure Level.Held (p : Shape) (level : Level) (hashes : List Bytes) (count : Nat) : Prop where
  filled : level.filled = p.digestSize * (hashes.drop (count * p.arity)).length
  buffer : level.buffer = p.pack (hashes.drop (count * p.arity))
  written : level.written = p.blockSize * count

/-- The nodes of the rows that are full. -/
def fullNodes (p : Shape) (hashes : List Bytes) : List Bytes :=
  nodes p.arity p.node hashes (hashes.length / p.arity)

def lastOf (p : Shape) (hashes : List Bytes) : Bytes :=
  hashes.getLast?.getD (zeros p.digestSize)

/-- The levels from one that was given `hashes`, and the root. -/
def Holds (p : Shape) : List Level → Bytes → List Bytes → Prop
  | [], root, hashes => root = lastOf p hashes
  | level :: rest, root, hashes =>
    level.Held p hashes (hashes.length / p.arity) ∧ Holds p rest root (fullNodes p hashes)

/-- The first `count` blocks of a level, with their offsets. -/
def blocksAt (p : Shape) (start : Nat) (hashes : List Bytes) (count : Nat) : List (Nat × Bytes) :=
  (List.range count).map fun i => (start + p.blockSize * i, p.pack (row p.arity hashes i))

/-- What was written while the hashes were given. -/
def fullBlocks (p : Shape) : List Nat → List Bytes → List (Nat × Bytes)
  | [], _ => []
  | start :: starts, hashes =>
    blocksAt p start hashes (hashes.length / p.arity) ++ fullBlocks p starts (fullNodes p hashes)

/-- All blocks of the levels. -/
def allBlocks (p : Shape) : List Nat → List Bytes → List (Nat × Bytes)
  | [], _ => []
  | start :: starts, hashes =>
    blocksAt p start hashes (hashes.length ⌈/⌉ p.arity) ++
      allBlocks p starts (above p.arity p.node hashes)

/-- The writer that remembers what it was given. -/
def logWriter : Writer (List (Nat × Bytes)) := fun log offset bytes => .ok (log ++ [(offset, bytes)])

theorem writeBlock_log (log : List (Nat × Bytes)) (level : Level) :
    writeBlock logWriter log level = .ok (log ++ [(level.start + level.written, level.buffer)]) :=
  rfl

theorem blocksAt_succ (p : Shape) (start : Nat) (hashes : List Bytes) (count : Nat) :
    blocksAt p start hashes (count + 1) = blocksAt p start hashes count ++
      [(start + p.blockSize * count, p.pack (row p.arity hashes count))] := by
  rw [blocksAt, List.range_succ, List.map_append, List.map_singleton, blocksAt]

variable {hashes : List Bytes} {count : Nat}

theorem blocksAt_append (p : Shape) (start : Nat) (h : count * p.arity ≤ hashes.length)
    (more : List Bytes) :
    blocksAt p start (hashes ++ more) count = blocksAt p start hashes count := by
  refine List.map_congr_left fun i hi => ?_
  have hrow : (i + 1) * p.arity ≤ hashes.length :=
    (Nat.mul_le_mul_right _ (List.mem_range.mp hi)).trans h
  rw [row_append hrow]

variable {p : Shape}

theorem Level.Held.left_lt (hp : p.Exact) (hashes : List Bytes) :
    (hashes.drop (hashes.length / p.arity * p.arity)).length = hashes.length % p.arity := by
  have hdiv := Nat.div_add_mod hashes.length p.arity
  rw [Nat.mul_comm] at hdiv
  rw [List.length_drop]
  omega

variable {level : Level} {hash root : Bytes}

theorem Level.Held.push (hp : p.Exact) (held : level.Held p hashes count) (hsized : p.Sized hashes)
    (hhash : hash.length = p.digestSize) (hcount : count * p.arity ≤ hashes.length)
    (hroom : hashes.length < count * p.arity + p.arity) :
    Level.Held p { level with
      buffer := copyFrom level.buffer level.filled hash
      filled := level.filled + p.digestSize } (hashes ++ [hash]) count := by
  have hdrop : (hashes ++ [hash]).drop (count * p.arity) = hashes.drop (count * p.arity) ++ [hash] :=
    List.drop_append_of_le_length hcount
  have hlt : (hashes.drop (count * p.arity)).length < p.arity := by
    rw [List.length_drop]
    omega
  exact {
    filled := by
      rw [hdrop, List.length_append, List.length_singleton, Nat.mul_succ, held.filled]
    buffer := by
      rw [hdrop, held.filled, held.buffer, hp.copyFrom_pack (Sized.drop hsized _) hhash hlt]
    written := held.written }

theorem Level.Held.room (hp : p.Exact) (held : level.Held p hashes count)
    (hroom : hashes.length < count * p.arity + p.arity) :
    ¬ p.blockSize < level.filled + p.digestSize := by
  have hlt : (hashes.drop (count * p.arity)).length < p.arity := by
    rw [List.length_drop]
    have hpos := hp.arity_pos
    omega
  have hle := hp.room (Nat.succ_le_of_lt hlt)
  rw [Nat.mul_succ, ← held.filled] at hle
  exact not_lt.mpr hle

theorem Level.Held.empty (start : Nat) {written : Nat} (hcount : count * p.arity = hashes.length)
    (hwritten : written = p.blockSize * count) :
    Level.Held p ⟨start, zeros p.blockSize, 0, written⟩ hashes count := by
  have hdrop : hashes.drop (count * p.arity) = [] := List.drop_of_length_le hcount.ge
  exact {
    filled := by rw [hdrop]; rfl
    buffer := by rw [hdrop]; simp [pack]
    written := hwritten }

theorem Level.Held.filled_eq_zero (held : level.Held p hashes count)
    (hnone : count * p.arity = hashes.length) : level.filled = 0 := by
  rw [held.filled, hnone, List.drop_length, List.length_nil, Nat.mul_zero]

theorem Level.Held.filled_ne (hp : p.Exact) (held : level.Held p hashes count)
    (hsome : count * p.arity < hashes.length) : level.filled ≠ 0 := by
  have hleft : 0 < (hashes.drop (count * p.arity)).length := by
    rw [List.length_drop]
    omega
  rw [held.filled]
  exact (Nat.mul_pos hp.digestSize_pos hleft).ne'

theorem Level.Held.buffer_eq (held : level.Held p hashes count)
    (hhigh : hashes.length ≤ count * p.arity + p.arity) :
    level.buffer = p.pack (row p.arity hashes count) := by
  rw [held.buffer, row_eq_drop hhigh]

variable {log : List (Nat × Bytes)}

theorem feed_holds (hp : p.Exact) {levels : List Level} (base : List (Nat × Bytes))
    (holds : Holds p levels root hashes)
    (hsized : p.Sized hashes) (hhash : hash.length = p.digestSize)
    (hlog : log.Perm (base ++ fullBlocks p (levels.map Level.start) hashes)) :
    ∃ levels' root' log', feed p logWriter levels root log hash = .ok (levels', root', log') ∧
      levels'.map Level.start = levels.map Level.start ∧
      Holds p levels' root' (hashes ++ [hash]) ∧
      log'.Perm (base ++ fullBlocks p (levels.map Level.start) (hashes ++ [hash])) := by
  induction levels generalizing root hashes hash log base with
  | nil =>
    refine ⟨[], hash, log, rfl, rfl, ?_, hlog⟩
    rw [Holds, lastOf, List.getLast?_concat]
    rfl
  | cons level rest ih =>
    obtain ⟨held, hrest⟩ := holds
    have hpos := hp.arity_pos
    have hdiv : hashes.length / p.arity * p.arity + hashes.length % p.arity = hashes.length := by
      rw [Nat.mul_comm]
      exact Nat.div_add_mod _ _
    have hmod := Nat.mod_lt hashes.length hpos
    have hcount : hashes.length / p.arity * p.arity ≤ hashes.length := by omega
    have hroom : hashes.length < hashes.length / p.arity * p.arity + p.arity := by omega
    have hpushed := held.push hp hsized hhash hcount hroom
    have hlength : (hashes ++ [hash]).length = hashes.length + 1 := by simp
    rw [feed]
    simp only [if_neg (held.room hp hroom)]
    have hfilled : level.filled + p.digestSize = p.digestSize * (hashes.length % p.arity + 1) := by
      rw [held.filled, Level.Held.left_lt hp, Nat.mul_succ]
    by_cases hfull : hashes.length % p.arity + 1 = p.arity
    · -- The row is full: the block is written and its hash goes one level up.
      have hnext : level.filled + p.digestSize = p.blockSize := by
        rw [hfilled, hfull, hp.blockSize_eq, Nat.mul_comm]
      have hsucc : (hashes.length / p.arity + 1) * p.arity = hashes.length + 1 := by
        rw [Nat.succ_mul]
        omega
      have hquot : (hashes ++ [hash]).length / p.arity = hashes.length / p.arity + 1 := by
        rw [hlength, ← hsucc, Nat.mul_div_cancel _ hpos]
      have hrow : row p.arity (hashes ++ [hash]) (hashes.length / p.arity) =
          (hashes ++ [hash]).drop (hashes.length / p.arity * p.arity) := by
        apply row_eq_drop
        rw [hlength]
        omega
      have hbuffer := hpushed.buffer
      rw [← hrow] at hbuffer
      have hnodes : fullNodes p (hashes ++ [hash]) =
          fullNodes p hashes ++ [p.hash (copyFrom level.buffer level.filled hash)] := by
        rw [fullNodes, hquot, nodes_succ, nodes_append hcount, fullNodes, node, ← hbuffer]
      have hblocks : blocksAt p level.start (hashes ++ [hash]) (hashes.length / p.arity + 1) =
          blocksAt p level.start hashes (hashes.length / p.arity) ++
            [(level.start + level.written, copyFrom level.buffer level.filled hash)] := by
        rw [blocksAt_succ, blocksAt_append p level.start hcount, held.written, ← hbuffer]
      simp only [hnext, ne_eq, not_true_eq_false, if_false, writeBlock_log]
      have hlog₁ : (log ++ [(level.start + level.written,
          copyFrom level.buffer level.filled hash)]).Perm
          (base ++ blocksAt p level.start (hashes ++ [hash]) (hashes.length / p.arity + 1) ++
            fullBlocks p (rest.map Level.start) (fullNodes p hashes)) := by
        rw [hblocks]
        rw [List.map_cons, fullBlocks] at hlog
        rw [List.perm_iff_count] at hlog ⊢
        intro x
        have hx := hlog x
        simp only [List.count_append] at hx ⊢
        omega
      obtain ⟨rest', root', log', hfeed, hstarts, hholds, hperm⟩ :=
        ih _ hrest (hp.sized_nodes _ _)
          (hp.length_hash (copyFrom level.buffer level.filled hash)) hlog₁
      refine ⟨{ level with
          written := level.written + p.blockSize
          buffer := zeros p.blockSize
          filled := 0 } :: rest', root', log', ?_, ?_, ?_, ?_⟩
      · show (feed p logWriter rest root _ _ >>= _) = _
        rw [hfeed]
        rfl
      · exact congrArg (level.start :: ·) hstarts
      · rw [Holds, hquot, hnodes]
        exact ⟨Level.Held.empty level.start (by rw [hlength, hsucc])
          (by rw [Nat.mul_succ, held.written]), hholds⟩
      · rw [List.map_cons, fullBlocks, hquot, hnodes, ← List.append_assoc]
        exact hperm
    · have hnext : level.filled + p.digestSize ≠ p.blockSize := by
        rw [hfilled, hp.blockSize_eq, Nat.mul_comm p.arity]
        intro heq
        exact hfull (Nat.eq_of_mul_eq_mul_left hp.digestSize_pos heq)
      have hquot : (hashes ++ [hash]).length / p.arity = hashes.length / p.arity := by
        rw [hlength]
        exact Nat.div_eq_of_lt_le (by omega) (by rw [Nat.succ_mul]; omega)
      have hnodes : fullNodes p (hashes ++ [hash]) = fullNodes p hashes := by
        rw [fullNodes, hquot, nodes_append hcount, fullNodes]
      simp only [if_pos hnext]
      refine ⟨_, root, log, rfl, rfl, ⟨?_, ?_⟩, ?_⟩
      · rw [hquot]
        exact hpushed
      · rw [hnodes]
        exact hrest
      · rw [List.map_cons, fullBlocks, hquot, hnodes, blocksAt_append p level.start hcount]
        exact hlog

theorem lastOf_nodes_succ (hashes : List Bytes) (count : Nat) :
    lastOf p (nodes p.arity p.node hashes (count + 1)) = p.node (row p.arity hashes count) := by
  rw [lastOf, nodes_succ, List.getLast?_concat]
  rfl

/-- The level that is `height` above. -/
def climbed (p : Shape) (height : Nat) (hashes : List Bytes) : List Bytes :=
  (above p.arity p.node)^[height] hashes

theorem climbed_zero (hashes : List Bytes) : climbed p 0 hashes = hashes := rfl

theorem climbed_succ (height : Nat) (hashes : List Bytes) :
    climbed p (height + 1) hashes = climbed p height (above p.arity p.node hashes) := rfl

theorem flush_ok (hp : p.Exact) {rest : List Level} (base : List (Nat × Bytes))
    (held : level.Held p hashes count) (hsized : p.Sized hashes)
    (hlow : count * p.arity ≤ hashes.length) (hhigh : hashes.length ≤ count * p.arity + p.arity)
    (hholds : Holds p rest root (nodes p.arity p.node hashes count))
    (hlog : log.Perm (base ++ (blocksAt p level.start hashes count ++
      fullBlocks p (rest.map Level.start) (nodes p.arity p.node hashes count)))) :
    ∃ root' log', flush p logWriter (level :: rest) root log = .ok (root', log') ∧
      root' = lastOf p (climbed p (rest.length + 1) hashes) ∧
      log'.Perm (base ++ allBlocks p (level.start :: rest.map Level.start) hashes) := by
  have hpos := hp.arity_pos
  induction rest generalizing level root hashes count log base with
  | nil =>
    rw [flush]
    rcases Nat.eq_or_lt_of_le hlow with hnone | hsome
    · have hfilled : level.filled = 0 := held.filled_eq_zero hnone
      rw [if_pos hfilled, flush]
      refine ⟨root, log, rfl, ?_, ?_⟩
      · rw [List.length_nil, climbed_succ, above_of_mul hpos hnone]
        exact hholds
      · rw [List.map_nil, allBlocks, allBlocks, ceilDiv_eq_of_mul hpos hnone]
        exact hlog
    have hfilled : level.filled ≠ 0 := held.filled_ne hp hsome
    have hbuffer := held.buffer_eq hhigh
    simp only [if_neg hfilled, writeBlock_log]
    refine ⟨p.hash level.buffer, _, rfl, ?_, ?_⟩
    · rw [List.length_nil, climbed_succ, climbed_zero, above_of_lt hpos hsome hhigh,
        lastOf_nodes_succ, node, hbuffer]
    · rw [List.map_nil, allBlocks, allBlocks, ceilDiv_eq_succ hpos hsome hhigh,
        blocksAt_succ, ← held.written, ← hbuffer]
      rw [List.map_nil, fullBlocks] at hlog
      rw [List.perm_iff_count] at hlog ⊢
      intro x
      have hx := hlog x
      simp only [List.count_append] at hx ⊢
      omega
  | cons upper rest ih =>
    obtain ⟨hupper, hrest⟩ := hholds
    rw [length_nodes] at hupper
    have hdiv : count / p.arity * p.arity + count % p.arity = count := by
      rw [Nat.mul_comm]
      exact Nat.div_add_mod _ _
    have hmod := Nat.mod_lt count hpos
    rw [flush]
    rcases Nat.eq_or_lt_of_le hlow with hnone | hsome
    · have hfilled : level.filled = 0 := held.filled_eq_zero hnone
      have habove : above p.arity p.node hashes = nodes p.arity p.node hashes count :=
        above_of_mul hpos hnone
      rw [if_pos hfilled]
      rw [fullNodes, length_nodes] at hrest
      rw [List.map_cons, fullBlocks, fullNodes, length_nodes, ← List.append_assoc] at hlog
      obtain ⟨root', log', hflush, hroot, hperm⟩ :=
        ih (base ++ blocksAt p level.start hashes count) hupper (hp.sized_nodes _ _)
          (by rw [length_nodes]; omega) (by rw [length_nodes]; omega) hrest hlog
      refine ⟨root', log', hflush, ?_, ?_⟩
      · rw [hroot, List.length_cons, climbed_succ _ hashes, habove]
      · rw [List.map_cons, allBlocks, ceilDiv_eq_of_mul hpos hnone, habove, ← List.append_assoc]
        exact hperm
    have hfilled : level.filled ≠ 0 := held.filled_ne hp hsome
    have hbuffer := held.buffer_eq hhigh
    have habove : above p.arity p.node hashes = nodes p.arity p.node hashes (count + 1) :=
      above_of_lt hpos hsome hhigh
    have hlow' : count / p.arity * p.arity ≤ (nodes p.arity p.node hashes count).length := by
      rw [length_nodes]
      omega
    have hroom : (nodes p.arity p.node hashes count).length <
        count / p.arity * p.arity + p.arity := by
      rw [length_nodes]
      omega
    have hnode : p.hash level.buffer = p.node (row p.arity hashes count) := by
      rw [node, hbuffer]
    have hpushed := hupper.push hp (hp.sized_nodes _ _) (hp.length_hash level.buffer) hlow' hroom
    rw [hnode, ← nodes_succ, ← hnode] at hpushed
    have hrest₁ : Holds p rest root
        (nodes p.arity p.node (nodes p.arity p.node hashes (count + 1)) (count / p.arity)) := by
      rw [fullNodes, length_nodes] at hrest
      rw [nodes_succ, nodes_append hlow']
      exact hrest
    have hlog₁ : (log ++ [(level.start + level.written, level.buffer)]).Perm
        (base ++ blocksAt p level.start hashes (count + 1) ++
          (blocksAt p upper.start (nodes p.arity p.node hashes (count + 1))
            (count / p.arity) ++ fullBlocks p (rest.map Level.start)
            (nodes p.arity p.node (nodes p.arity p.node hashes (count + 1))
              (count / p.arity)))) := by
      rw [List.map_cons, fullBlocks, fullNodes, length_nodes] at hlog
      rw [nodes_succ, nodes_append hlow', blocksAt_append _ _ hlow', blocksAt_succ,
        ← held.written, ← hbuffer]
      rw [List.perm_iff_count] at hlog ⊢
      intro x
      have hx := hlog x
      simp only [List.count_append] at hx ⊢
      omega
    simp only [if_neg hfilled, writeBlock_log]
    obtain ⟨root', log', hflush, hroot, hperm⟩ :=
      ih _ hpushed (hp.sized_nodes _ _) (by rw [length_nodes]; omega)
        (by rw [length_nodes]; omega) hrest₁ hlog₁
    refine ⟨root', log', ?_, ?_, ?_⟩
    · show (if p.blockSize < upper.filled + p.digestSize then _ else _) = _
      rw [if_neg (hupper.room hp hroom)]
      exact hflush
    · rw [hroot, List.length_cons, climbed_succ _ hashes, habove]
    · rw [List.map_cons, allBlocks, ceilDiv_eq_succ hpos hsome hhigh, habove, ← List.append_assoc]
      exact hperm

end Kinakaze.Verity
