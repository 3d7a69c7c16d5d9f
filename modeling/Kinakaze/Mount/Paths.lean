import Mathlib.Algebra.Ring.Nat
import Mathlib.Algebra.Ring.Int.Defs
import Mathlib.Tactic.Common

/-!
# Paths of a mount namespace

A normalized path is the list of its components, `[]` being `/`.
-/

namespace Kinakaze.Mount

abbrev Text := List Char

def EIO : Int := 5
def EINVAL : Int := 22
def EBUSY : Int := 16
def EOVERFLOW : Int := 75
def EOPNOTSUPP : Int := 95

/-- What may stand between two slashes of a normalized path. -/
def Plain (text : Text) : Prop :=
  text ≠ [] ∧ text ≠ ['.'] ∧ text ≠ ['.', '.'] ∧ (text.all fun c => c ≠ '/' && c ≠ '\x00') = true

instance (text : Text) : Decidable (Plain text) := inferInstanceAs (Decidable (_ ∧ _))

structure Name where
  text : Text
  plain : Plain text
  deriving DecidableEq

abbrev Path := List Name

def Name.of? (text : Text) : Option Name :=
  if h : Plain text then some ⟨text, h⟩ else none

def byteLength (text : Text) : Nat := (text.map Char.utf8Size).sum

/-- One component of a text that is read from left to right. -/
def normalizeStep (parts : Path) (part : Text) : Path :=
  if part = ['.', '.'] then
    match parts with
    | [drive] => if byteLength drive.text = 1 then [drive] else []
    | parts => parts.dropLast
  else
    match Name.of? part with
    | some name => parts ++ [name]
    | none => parts

def normalize (text : Text) : Except Int Path :=
  if text.head? ≠ some '/' ∨ '\x00' ∈ text then .error EINVAL
  else .ok ((text.splitOnP fun c => c = '/').foldl normalizeStep [])

/-- The components with slashes between them. -/
def Path.joined : Path → Text
  | [] => []
  | [name] => name.text
  | name :: rest => name.text ++ '/' :: Path.joined rest

def Path.text (path : Path) : Text := '/' :: path.joined

/-- `suffix(path, target)`. -/
def suffix (path target : Path) : Option Path :=
  if target <+: path then some (path.drop target.length) else none

/-- `join(source, rest)`. -/
def join (source : Text) (rest : Path) : Text :=
  if rest = [] then source
  else if source = ['/'] then '/' :: rest.joined
  else source ++ '/' :: rest.joined

/-- The length of the text of a path in bytes. -/
def Path.textLength (path : Path) : Nat :=
  if path = [] then 1 else (path.map fun name => 1 + byteLength name.text).sum

/-! ## Laws -/

theorem suffix_append (path rest : Path) : suffix (path ++ rest) path = some rest := by
  rw [suffix, if_pos (List.prefix_append path rest), List.drop_left]

theorem suffix_eq_some {path target rest : Path} :
    suffix path target = some rest ↔ path = target ++ rest := by
  constructor
  · intro h
    unfold suffix at h
    split at h
    · next hinit =>
      obtain ⟨rest', rfl⟩ := hinit
      rw [List.drop_left] at h
      rw [Option.some.inj h]
    · cases h
  · rintro rfl
    exact suffix_append target rest

variable {a b : Path}

theorem joined_append (ha : a ≠ []) (hb : b ≠ []) :
    Path.joined (a ++ b) = a.joined ++ '/' :: b.joined := by
  induction a with
  | nil => exact absurd rfl ha
  | cons name rest ih =>
    cases rest with
    | nil =>
      obtain ⟨first, others, rfl⟩ := List.exists_cons_of_ne_nil hb
      rfl
    | cons name' rest =>
      have hrest := ih (List.cons_ne_nil name' rest)
      simp only [List.cons_append] at hrest ⊢
      simp only [Path.joined, hrest, List.append_assoc, List.cons_append]

theorem join_join (source : Text) (a b : Path) : join (join source a) b = join source (a ++ b) := by
  by_cases ha : a = []
  · simp [join, ha]
  by_cases hb : b = []
  · simp [join, hb]
  have hab : a ++ b ≠ [] := by simp [ha]
  have hne : join source a ≠ ['/'] := by
    have hjoined : a.joined ≠ [] := by
      obtain ⟨name, rest, rfl⟩ := List.exists_cons_of_ne_nil ha
      cases rest with
      | nil => exact name.plain.1
      | cons name' rest => simp [Path.joined]
    unfold join
    rw [if_neg ha]
    split
    · simp [hjoined]
    intro heq
    have hlength := congrArg List.length heq
    have hpos := List.length_pos_iff.mpr hjoined
    simp only [List.length_append, List.length_cons, List.length_nil] at hlength
    omega
  have hright : join source (a ++ b) = join source a ++ '/' :: b.joined := by
    unfold join
    rw [if_neg hab, if_neg ha, joined_append ha hb]
    split <;> simp
  rw [hright, join, if_neg hb, if_neg hne]

theorem Name.noSlash (name : Name) : ∀ c ∈ name.text, (c ≠ '/') = true := by
  intro c hc
  have hall := List.all_eq_true.mp name.plain.2.2.2 c hc
  simp only [ne_eq, Bool.and_eq_true, decide_eq_true_eq] at hall
  simp [hall.1]

theorem takeWhile_name (name : Name) {rest : Text} (hrest : ∀ c ∈ rest.head?, c = '/') :
    (name.text ++ rest).takeWhile (fun c => c ≠ '/') = name.text := by
  rw [List.takeWhile_append_of_pos fun c hc => by simpa using name.noSlash c hc]
  cases rest with
  | nil => simp
  | cons c rest =>
    obtain rfl := hrest c (by simp)
    simp

theorem joined_injective (h : a.joined = b.joined) : a = b := by
  have hhead : ∀ (name : Name) (rest : Path), ∃ tail : Text,
      Path.joined (name :: rest) = name.text ++ tail ∧ (∀ c ∈ tail.head?, c = '/') ∧
        tail = if rest = [] then [] else '/' :: rest.joined := by
    intro name rest
    cases rest with
    | nil => exact ⟨[], by simp [Path.joined], by simp, rfl⟩
    | cons name' rest => exact ⟨_, rfl, by simp, by simp⟩
  induction a generalizing b with
  | nil =>
    cases b with
    | nil => rfl
    | cons name rest =>
      obtain ⟨tail, htail, -⟩ := hhead name rest
      rw [htail] at h
      exact absurd (List.append_eq_nil_iff.mp h.symm).1 name.plain.1
  | cons name rest ih =>
    obtain ⟨tail, htail, hslash, hrest⟩ := hhead name rest
    cases b with
    | nil =>
      rw [htail] at h
      exact absurd (List.append_eq_nil_iff.mp h).1 name.plain.1
    | cons name' rest' =>
      obtain ⟨tail', htail', hslash', hrest'⟩ := hhead name' rest'
      rw [htail, htail'] at h
      have htext : name.text = name'.text := by
        rw [← takeWhile_name name hslash, ← takeWhile_name name' hslash', h]
      have hname : name = name' := by
        obtain ⟨text, hplain⟩ := name
        obtain ⟨text', hplain'⟩ := name'
        simpa using htext
      rw [htext] at h
      have htails := List.append_cancel_left h
      rw [hrest, hrest'] at htails
      split at htails <;> split at htails
      · next hnil hnil' => rw [hname, hnil, hnil']
      · cases htails
      · cases htails
      · rw [hname, ih (List.cons_inj_right _ |>.mp htails)]

theorem join_right_injective {source : Text} (h : join source a = join source b) : a = b := by
  have hne : ∀ {rest : Path}, rest ≠ [] → source ≠ join source rest := by
    intro rest hrest heq
    have hjoined : rest.joined ≠ [] := fun hnil => hrest (joined_injective (b := []) hnil)
    have hpos := List.length_pos_iff.mpr hjoined
    have hlength := congrArg List.length heq
    unfold join at hlength
    rw [if_neg hrest] at hlength
    split at hlength
    · next hslash =>
      rw [hslash] at hlength
      simp only [List.length_cons, List.length_nil] at hlength
      omega
    · simp only [List.length_append, List.length_cons] at hlength
      omega
  by_cases ha : a = []
  · by_cases hb : b = []
    · rw [ha, hb]
    · rw [ha] at h
      exact absurd h (hne hb)
  by_cases hb : b = []
  · rw [hb] at h
    exact absurd h.symm (hne ha)
  simp only [join, if_neg ha, if_neg hb] at h
  split at h
  · exact joined_injective (List.cons_inj_right _ |>.mp h)
  · exact joined_injective (List.cons_inj_right _ |>.mp (List.append_cancel_left h))

theorem join_left_injective {source source' : Text} {rest : Path} (hne : source ≠ [])
    (hne' : source' ≠ []) (h : join source rest = join source' rest) : source = source' := by
  by_cases hrest : rest = []
  · simpa [join, hrest] using h
  simp only [join, if_neg hrest] at h
  split at h <;> split at h
  · next hs hs' => rw [hs, hs']
  · have hnil : ([] : Text) = source' := List.append_cancel_right h
    exact absurd hnil.symm hne'
  · have hnil : source = ([] : Text) := List.append_cancel_right h
    exact absurd hnil hne
  · exact List.append_cancel_right h

theorem byteLength_pos (name : Name) : 0 < byteLength name.text := by
  obtain ⟨c, rest, h⟩ := List.exists_cons_of_ne_nil name.plain.1
  rw [byteLength, h, List.map_cons, List.sum_cons]
  exact Nat.add_pos_left (Char.utf8Size_pos c) _

theorem textLength_lt (h : a <+: b) (hne : a ≠ b) : a.textLength < b.textLength := by
  obtain ⟨rest, rfl⟩ := h
  have hrest : rest ≠ [] := fun hnil => hne (by rw [hnil, List.append_nil])
  have hab : a ++ rest ≠ [] := by simp [hrest]
  obtain ⟨name, others, rfl⟩ := List.exists_cons_of_ne_nil hrest
  have hpos := byteLength_pos name
  unfold Path.textLength
  rw [if_neg hab, List.map_append, List.sum_append, List.map_cons, List.sum_cons]
  split <;> omega

theorem textLength_le_iff {path : Path} (ha : a <+: path) (hb : b <+: path) :
    a.textLength ≤ b.textLength ↔ a.length ≤ b.length := by
  rcases List.prefix_or_prefix_of_prefix ha hb with h | h
  · refine ⟨fun _ => h.length_le, fun _ => ?_⟩
    by_cases heq : a = b
    · exact heq ▸ Nat.le_refl _
    · exact Nat.le_of_lt (textLength_lt h heq)
  by_cases heq : b = a
  · simp [heq]
  have hlt := textLength_lt h heq
  have hlength : b.length ≠ a.length := fun hl => heq (h.eq_of_length hl)
  have hle := h.length_le
  omega

end Kinakaze.Mount
