import Kinakaze.Library.Extents
import Kinakaze.Library.LittleEndian

/-!
# Id maps

A map of user ids or group ids is a list of rows `[inside, outside, count]`.
-/

namespace Kinakaze.UserNamespace

open Library

abbrev Bytes := List (BitVec 8)

def ENOENT : Int := 2
def EIO : Int := 5
def EPERM : Int := 1
def EINVAL : Int := 22
def ENOSPC : Int := 28

def U32_MAX : Nat := 2 ^ 32 - 1

/-- `[u32; 3]`. -/
structure Row where
  inside : BitVec 32
  outside : BitVec 32
  count : BitVec 32
  deriving DecidableEq

/-! ## Looking up, checking, composing -/

/-- The closure of `translate`. -/
def Row.translate (row : Row) (value : BitVec 32) (reverse : Bool) : Option (BitVec 32) :=
  let source := if reverse then row.outside else row.inside
  let target := if reverse then row.inside else row.outside
  if source ≤ value ∧ value - source < row.count then
    if target.toNat + (value - source).toNat < 2 ^ 32 then some (target + (value - source))
    else none
  else none

def translate (rows : List Row) (value : BitVec 32) (reverse : Bool) : Option (BitVec 32) :=
  rows.findSome? fun row => row.translate value reverse

/-- Two ranges of the rows meet on one side. -/
def overlaps (start count start' count' : BitVec 32) : Bool :=
  start.toNat < start'.toNat + count'.toNat && start'.toNat < start.toNat + count.toNat

/-- The check of one row behind the previous ones. -/
def Row.accepted (previous : List Row) (row : Row) : Bool :=
  row.count != 0 && row.inside.toNat + row.count.toNat ≤ U32_MAX &&
    row.outside.toNat + row.count.toNat ≤ U32_MAX &&
    previous.all fun p =>
      !overlaps row.inside row.count p.inside p.count &&
        !overlaps row.outside row.count p.outside p.count

def acceptedFrom (previous : List Row) : List Row → Bool
  | [] => true
  | row :: rest => row.accepted previous && acceptedFrom (previous ++ [row]) rest

def validate (rows : List Row) : Except Int Unit :=
  if acceptedFrom [] rows then .ok () else .error EINVAL

/-- The part of a row that leads into the row `p` of the parent's map. -/
def Row.meet (row p : Row) : Option Row :=
  let lo := max row.outside.toNat p.inside.toNat
  let hi := min (row.outside.toNat + row.count.toNat) (p.inside.toNat + p.count.toNat)
  if lo < hi then
    some ⟨row.inside + .ofNat 32 (lo - row.outside.toNat),
      p.outside + .ofNat 32 (lo - p.inside.toNat), .ofNat 32 (hi - lo)⟩
  else none

/-- The closure `compose`. -/
def composeRows (rows parent : List Row) : List Row :=
  rows.flatMap fun row => parent.filterMap row.meet

structure Mapping where
  uid : List Row
  gid : List Row
  deriving DecidableEq

def Mapping.rows (m : Mapping) (group : Bool) : List Row := if group then m.gid else m.uid

def Mapping.down (m : Mapping) (value : BitVec 32) (group : Bool) : Option (BitVec 32) :=
  translate (m.rows group) value false

def Mapping.up (m : Mapping) (value : BitVec 32) (group : Bool) : Option (BitVec 32) :=
  translate (m.rows group) value true

def Mapping.compose (child parent : Mapping) : Mapping :=
  ⟨composeRows child.uid parent.uid, composeRows child.gid parent.gid⟩

/-! ## The stored form -/

def Row.encode (row : Row) : Bytes :=
  leBytes 4 row.inside.toNat ++ leBytes 4 row.outside.toNat ++ leBytes 4 row.count.toNat

def encodeRows (rows : List Row) : Bytes := leBytes 4 rows.length ++ rows.flatMap Row.encode

def Mapping.encode (m : Mapping) : Bytes := encodeRows m.uid ++ encodeRows m.gid

/-- The next word, and the bytes behind it. -/
def readWord (bytes : Bytes) : Except Int (BitVec 32 × Bytes) :=
  if 4 ≤ bytes.length then .ok (.ofNat 32 (ofLe (bytes.take 4)), bytes.drop 4) else .error EIO

def readRows : Nat → Bytes → Except Int (List Row × Bytes)
  | 0, bytes => .ok ([], bytes)
  | count + 1, bytes => do
    let (inside, bytes) ← readWord bytes
    let (outside, bytes) ← readWord bytes
    let (length, bytes) ← readWord bytes
    let (rows, bytes) ← readRows count bytes
    return (⟨inside, outside, length⟩ :: rows, bytes)

def readMap (bytes : Bytes) : Except Int (List Row × Bytes) := do
  let (count, bytes) ← readWord bytes
  if 340 < count.toNat then throw EIO
  let (rows, bytes) ← readRows count.toNat bytes
  validate rows
  return (rows, bytes)

def Mapping.decode (bytes : Bytes) : Except Int Mapping := do
  let (uid, bytes) ← readMap bytes
  let (gid, bytes) ← readMap bytes
  if bytes ≠ [] then throw EIO
  return ⟨uid, gid⟩

/-! ## Valid maps -/

def Row.extent (row : Row) : Extent := ⟨row.inside.toNat, row.outside.toNat, row.count.toNat⟩

def extents (rows : List Row) : List Extent := rows.map Row.extent

/-- The range of a row is not empty and ends below `u32::MAX` on both sides. -/
structure Row.Good (row : Row) : Prop where
  count : 0 < row.count.toNat
  inside : row.inside.toNat + row.count.toNat ≤ U32_MAX
  outside : row.outside.toNat + row.count.toNat ≤ U32_MAX

structure Valid (rows : List Row) : Prop where
  good : ∀ row ∈ rows, row.Good
  disjoint : (extents rows).Pairwise Extent.Disjoint

variable {previous parent : List Row}

theorem accepted_iff {row : Row} : row.accepted previous = true ↔
    row.Good ∧ ∀ p ∈ previous, p.extent.Disjoint row.extent := by
  have hcount : (row.count != 0) = true ↔ 0 < row.count.toNat := by
    have hzero : (0 : BitVec 32).toNat = 0 := rfl
    rw [bne_iff_ne, ne_eq, ← BitVec.toNat_inj, hzero]
    omega
  have hoverlaps : ∀ p : Row, (!overlaps row.inside row.count p.inside p.count &&
      !overlaps row.outside row.count p.outside p.count) = true ↔
      p.extent.Disjoint row.extent := by
    intro p
    simp only [overlaps, Bool.and_eq_true, Bool.not_eq_true', Bool.and_eq_false_iff,
      decide_eq_false_iff_not, Nat.not_lt]
    constructor
    · rintro ⟨hinside, houtside⟩
      exact ⟨hinside, houtside⟩
    · rintro ⟨hinside, houtside⟩
      exact ⟨hinside, houtside⟩
  simp only [Row.accepted, Bool.and_eq_true, hcount, decide_eq_true_eq, List.all_eq_true]
  constructor
  · rintro ⟨⟨⟨hpos, hin⟩, hout⟩, hall⟩
    refine ⟨⟨hpos, hin, hout⟩, fun p hp => (hoverlaps p).mp ?_⟩
    simpa using hall p hp
  · rintro ⟨⟨hpos, hin, hout⟩, hall⟩
    refine ⟨⟨⟨hpos, hin⟩, hout⟩, fun p hp => ?_⟩
    simpa using (hoverlaps p).mpr (hall p hp)

variable {rows : List Row}

theorem acceptedFrom_iff : acceptedFrom previous rows = true ↔
    Valid rows ∧ ∀ p ∈ previous, ∀ row ∈ rows, p.extent.Disjoint row.extent := by
  induction rows generalizing previous with
  | nil => exact ⟨fun _ => ⟨⟨nofun, .nil⟩, fun _ _ => nofun⟩, fun _ => rfl⟩
  | cons row rest ih =>
    rw [acceptedFrom, Bool.and_eq_true, accepted_iff, ih]
    constructor
    · rintro ⟨⟨hgood, hprevious⟩, hrest, hall⟩
      refine ⟨⟨fun r hr => ?_, List.pairwise_cons.mpr ⟨fun e he => ?_, hrest.disjoint⟩⟩,
        fun p hp r hr => ?_⟩
      · rcases List.mem_cons.mp hr with rfl | hr
        · exact hgood
        · exact hrest.good r hr
      · obtain ⟨r, hr, rfl⟩ := List.mem_map.mp he
        exact hall row (by simp) r hr
      · rcases List.mem_cons.mp hr with rfl | hr
        · exact hprevious p hp
        · exact hall p (by simp [hp]) r hr
    · rintro ⟨⟨hgood, hdisjoint⟩, hall⟩
      have hpairs := List.pairwise_cons.mp hdisjoint
      refine ⟨⟨hgood row (by simp), fun p hp => hall p hp row (by simp)⟩,
        ⟨fun r hr => hgood r (by simp [hr]), hpairs.2⟩, fun p hp r hr => ?_⟩
      rcases List.mem_append.mp hp with hp | hp
      · exact hall p hp r (by simp [hr])
      · obtain rfl := List.mem_singleton.mp hp
        exact hpairs.1 r.extent (List.mem_map_of_mem hr)

theorem validate_ok : validate rows = .ok () ↔ Valid rows := by
  unfold validate
  split
  · next h => simpa using (acceptedFrom_iff.mp h).1
  · next h =>
    refine ⟨nofun, fun hvalid => absurd (acceptedFrom_iff.mpr ⟨hvalid, fun p hp => ?_⟩) h⟩
    exact absurd hp List.not_mem_nil

/-! ## What a lookup finds -/

variable {value u : BitVec 32}

theorem Row.translate_eq_some {row : Row} (h : row.Good) {reverse : Bool} :
    row.translate value reverse = some u ↔ if reverse then row.extent.Maps u.toNat value.toNat
      else row.extent.Maps value.toNat u.toNat := by
  obtain ⟨-, hin, hout⟩ := h
  simp only [U32_MAX] at hin hout
  unfold Row.translate Row.extent Extent.Maps
  generalize hsource : (if reverse then row.outside else row.inside) = source
  generalize htarget : (if reverse then row.inside else row.outside) = target
  have hbound : target.toNat + row.count.toNat < 2 ^ 32 := by
    rw [← htarget]
    cases reverse <;> simp <;> omega
  have hspec : (if source ≤ value ∧ value - source < row.count then
      if target.toNat + (value - source).toNat < 2 ^ 32 then some (target + (value - source))
      else none
    else none) = some u ↔ source.toNat ≤ value.toNat ∧
      value.toNat < source.toNat + row.count.toNat ∧
      u.toNat = target.toNat + (value.toNat - source.toNat) := by
    by_cases hle : source ≤ value
    · have hsub : (value - source).toNat = value.toNat - source.toNat :=
        BitVec.toNat_sub_of_le hle
      by_cases hlt : value - source < row.count
      · rw [if_pos ⟨hle, hlt⟩]
        rw [BitVec.le_def] at hle
        rw [BitVec.lt_def, hsub] at hlt
        rw [if_pos (by omega), Option.some.injEq, ← BitVec.toNat_inj, BitVec.toNat_add, hsub,
          Nat.mod_eq_of_lt (by omega)]
        omega
      · rw [if_neg fun h => hlt h.2]
        rw [BitVec.le_def] at hle
        rw [BitVec.lt_def, hsub] at hlt
        simp only [reduceCtorEq, false_iff]
        omega
    · rw [if_neg fun h => hle h.1]
      rw [BitVec.le_def] at hle
      simp only [reduceCtorEq, false_iff]
      omega
  rw [hspec, ← hsource, ← htarget]
  cases reverse with
  | false => simp
  | true =>
    simp only [if_true]
    omega

theorem translate_eq_some {reverse : Bool} {M : Extent → BitVec 32 → Prop}
    (hrow : ∀ row ∈ rows, ∀ w, row.translate value reverse = some w ↔ M row.extent w)
    (hone : ∀ w w', (∃ e ∈ extents rows, M e w) → (∃ e ∈ extents rows, M e w') → w = w') :
    translate rows value reverse = some u ↔ ∃ e ∈ extents rows, M e u := by
  have hany : ∀ row ∈ rows, ∀ w, row.translate value reverse = some w →
      ∃ e ∈ extents rows, M e w := fun row hmem w hsome =>
    ⟨row.extent, List.mem_map_of_mem hmem, (hrow row hmem w).mp hsome⟩
  constructor
  · intro hsome
    obtain ⟨row, hmem, hsome⟩ := List.exists_of_findSome?_eq_some hsome
    exact hany row hmem u hsome
  · rintro ⟨e, he, hmap⟩
    obtain ⟨row, hmem, rfl⟩ := List.mem_map.mp he
    have hsome := (hrow row hmem u).mpr hmap
    cases hfound : translate rows value reverse with
    | none =>
      have hnone := List.findSome?_eq_none_iff.mp hfound row hmem
      rw [hsome] at hnone
      cases hnone
    | some w =>
      obtain ⟨row', hmem', hsome'⟩ := List.exists_of_findSome?_eq_some hfound
      rw [hone w u (hany row' hmem' w hsome') (hany row hmem u hsome)]

theorem translate_down (h : Valid rows) :
    translate rows value false = some u ↔ Maps (extents rows) value.toNat u.toNat :=
  translate_eq_some (M := fun e w => e.Maps value.toNat w.toNat)
    (fun row hmem w => by simp [Row.translate_eq_some (h.good row hmem)])
    fun _ _ hw hw' => BitVec.eq_of_toNat_eq (Maps.functional h.disjoint hw hw')

theorem translate_up (h : Valid rows) :
    translate rows value true = some u ↔ Maps (extents rows) u.toNat value.toNat :=
  translate_eq_some (M := fun e w => e.Maps w.toNat value.toNat)
    (fun row hmem w => by simp [Row.translate_eq_some (h.good row hmem)])
    fun _ _ hw hw' => BitVec.eq_of_toNat_eq (Maps.injective h.disjoint hw hw')

theorem translate_inverse (h : Valid rows) :
    translate rows value false = some u ↔ translate rows u true = some value := by
  rw [translate_down h, translate_up h]

/-! ## Composed maps -/

theorem Row.meet_extent {row p : Row} (hrow : row.Good) (hp : p.Good) :
    (row.meet p).map Row.extent = row.extent.meet p.extent := by
  obtain ⟨-, hin, hout⟩ := hrow
  obtain ⟨-, hpin, hpout⟩ := hp
  simp only [U32_MAX] at hin hout hpin hpout
  by_cases hlt : max row.outside.toNat p.inside.toNat <
      min (row.outside.toNat + row.count.toNat) (p.inside.toNat + p.count.toNat)
  · have hright : row.extent.meet p.extent = some
        ⟨row.inside.toNat + (max row.outside.toNat p.inside.toNat - row.outside.toNat),
          p.outside.toNat + (max row.outside.toNat p.inside.toNat - p.inside.toNat),
          min (row.outside.toNat + row.count.toNat) (p.inside.toNat + p.count.toNat) -
            max row.outside.toNat p.inside.toNat⟩ := if_pos hlt
    rw [hright, Row.meet]
    simp only [if_pos hlt, Option.map_some, Option.some.injEq, Row.extent, Extent.mk.injEq,
      BitVec.toNat_add, BitVec.toNat_ofNat]
    refine ⟨?_, ?_, ?_⟩ <;> omega
  · have hright : row.extent.meet p.extent = none := if_neg hlt
    rw [hright, Row.meet]
    simp only [if_neg hlt, Option.map_none]

theorem extents_composeRows (hrows : Valid rows) (hparent : Valid parent) :
    extents (composeRows rows parent) = Library.compose (extents rows) (extents parent) := by
  have hinner : ∀ row ∈ rows, (parent.filterMap row.meet).map Row.extent =
      (extents parent).filterMap row.extent.meet := by
    intro row hrow
    rw [List.map_filterMap, extents, List.filterMap_map]
    exact List.filterMap_congr fun p hp =>
      Row.meet_extent (hrows.good row hrow) (hparent.good p hp)
  simp only [extents, composeRows, Library.compose, List.map_flatMap, List.flatMap_map] at hinner ⊢
  exact List.flatMap_congr hinner

/-- Each row leads into one row of the parent's map. -/
def Admitted (rows parent : List Row) : Prop := FitsInto (extents rows) (extents parent)

theorem Extent.through_bounds {e p : Extent} (h : e.Fits p) :
    (e.through p).outside + (e.through p).count ≤ p.outside + p.count := by
  obtain ⟨hlo, hhi⟩ := h
  simp only [Extent.through]
  omega

theorem Valid.compose (hrows : Valid rows) (hparent : Valid parent)
    (hadmitted : Admitted rows parent) :
    Valid (composeRows rows parent) ∧ (composeRows rows parent).length = rows.length := by
  have hcount : ∀ e ∈ extents rows, 0 < e.count := by
    intro e he
    obtain ⟨row, hrow, rfl⟩ := List.mem_map.mp he
    exact (hrows.good row hrow).count
  have hextents := extents_composeRows hrows hparent
  obtain ⟨hlength, hform, hdisjoint⟩ :=
    compose_of_fits hparent.disjoint hrows.disjoint hcount hadmitted
  refine ⟨⟨fun row hrow => ?_, hextents ▸ hdisjoint⟩, ?_⟩
  · have hmem : row.extent ∈ Library.compose (extents rows) (extents parent) :=
      hextents ▸ List.mem_map_of_mem hrow
    obtain ⟨e, he, p, hp, hfits, heq⟩ := hform _ hmem
    obtain ⟨row₀, hrow₀, rfl⟩ := List.mem_map.mp he
    obtain ⟨p₀, hp₀, rfl⟩ := List.mem_map.mp hp
    have hgood := hrows.good row₀ hrow₀
    have hbounds := Extent.through_bounds hfits
    have hout := (hparent.good p₀ hp₀).outside
    have hin := hgood.inside
    have hpos := hgood.count
    simp only [Row.extent, Extent.through, Extent.mk.injEq] at heq hbounds
    obtain ⟨h₁, h₂, h₃⟩ := heq
    exact ⟨by omega, by omega, by omega⟩
  · have hlengths := congrArg List.length hextents
    rw [hlength] at hlengths
    simpa [extents] using hlengths

theorem down_composeRows (hrows : Valid rows) (hparent : Valid parent)
    (hadmitted : Admitted rows parent) (value : BitVec 32) :
    translate (composeRows rows parent) value false =
      (translate rows value false).bind fun u => translate parent u false := by
  obtain ⟨hvalid, -⟩ := hrows.compose hparent hadmitted
  refine Option.ext fun w => ?_
  rw [translate_down hvalid, extents_composeRows hrows hparent, maps_compose,
    Option.bind_eq_some_iff]
  constructor
  · rintro ⟨b, hb, hc⟩
    have hlt : b < 2 ^ 32 := by
      obtain ⟨p, hp, hlo, hhi, -⟩ := hc
      obtain ⟨p₀, hp₀, rfl⟩ := List.mem_map.mp hp
      have hin := (hparent.good p₀ hp₀).inside
      simp only [Row.extent, U32_MAX] at hhi hin
      omega
    have hnat : (BitVec.ofNat 32 b).toNat = b := by
      rw [BitVec.toNat_ofNat, Nat.mod_eq_of_lt hlt]
    exact ⟨.ofNat 32 b, (translate_down hrows).mpr (hnat.symm ▸ hb),
      (translate_down hparent).mpr (hnat.symm ▸ hc)⟩
  · rintro ⟨u, hu, hw⟩
    exact ⟨u.toNat, (translate_down hrows).mp hu, (translate_down hparent).mp hw⟩

/-! ## Round trips -/

theorem readWord_leBytes (value : BitVec 32) (rest : Bytes) :
    readWord (leBytes 4 value.toNat ++ rest) = .ok (value, rest) := by
  have hlength : (leBytes 4 value.toNat).length = 4 := length_leBytes 4 value.toNat
  have htake : (leBytes 4 value.toNat ++ rest).take 4 = leBytes 4 value.toNat := by
    rw [List.take_append_of_le_length hlength.ge, List.take_of_length_le hlength.le]
  have hdrop : (leBytes 4 value.toNat ++ rest).drop 4 = rest := List.drop_left' hlength
  rw [readWord, if_pos (by simp), htake, hdrop, ofNat_ofLe_leBytes 4 rfl]

theorem readRows_encode (rows : List Row) (rest : Bytes) :
    readRows rows.length (rows.flatMap Row.encode ++ rest) = .ok (rows, rest) := by
  induction rows with
  | nil => rfl
  | cons row rows ih =>
    rw [List.length_cons, readRows, List.flatMap_cons]
    simp only [Row.encode, List.append_assoc, readWord_leBytes, bind, Except.bind, ih]
    rfl

theorem readMap_encode (h : Valid rows) (hlength : rows.length ≤ 340)
    (rest : Bytes) : readMap (encodeRows rows ++ rest) = .ok (rows, rest) := by
  have hcount : (BitVec.ofNat 32 rows.length).toNat = rows.length := by
    rw [BitVec.toNat_ofNat]
    omega
  have hword := readWord_leBytes (.ofNat 32 rows.length) (rows.flatMap Row.encode ++ rest)
  rw [hcount] at hword
  rw [encodeRows, List.append_assoc, readMap]
  simp only [hword, bind, Except.bind, hcount, readRows_encode, validate_ok.mpr h]
  rw [if_neg (by omega)]
  rfl

theorem Mapping.decode_encode {m : Mapping} (h : ∀ group : Bool, Valid (m.rows group))
    (hlength : ∀ group : Bool, (m.rows group).length ≤ 340) : decode m.encode = .ok m := by
  have huid := readMap_encode (h false) (hlength false) (encodeRows m.gid)
  have hgid := readMap_encode (h true) (hlength true) []
  rw [List.append_nil] at hgid
  simp only [rows, if_true, Bool.false_eq_true, if_false] at huid hgid
  rw [decode, encode]
  simp only [huid, hgid, bind, Except.bind, ne_eq, not_true_eq_false, if_false]
  rfl

end Kinakaze.UserNamespace
