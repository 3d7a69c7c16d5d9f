import Kinakaze.Mount.Paths
import Kinakaze.Path.Confinement
import Mathlib.Data.List.Induction

/-!
# Normalizing a path before it is resolved

Every mounted lookup resolves `normalize(path)` in place of the path.  Both read the
components from left to right and take one off at `..`; they differ in what they keep.
-/

namespace Kinakaze.Path

/-! ## Names that are left -/

def collapseStep (names : List Text) (part : Text) : List Text :=
  if part = ['.'] then names
  else if part = ['.', '.'] then names.dropLast
  else names ++ [part]

def collapse (parts : List Text) : List Text := parts.foldl collapseStep []

/-- The one-byte name that stands alone when a `..` comes. -/
def stopped (names : List Text) (part : Text) : Option Text :=
  match names with
  | [name] => if part = ['.', '.'] ∧ Mount.byteLength name = 1 then some name else none
  | _ => none

variable {part : Text}

theorem stopped_of_ne (names : List Text) (h : part ≠ ['.', '.']) : stopped names part = none := by
  unfold stopped
  split
  · rw [if_neg (fun hand => h hand.1)]
  · rfl

/-- The names that are left, with the first name that stopped a `..`. -/
def keptStep (state : List Text × Option Text) (part : Text) : List Text × Option Text :=
  (collapseStep state.1 part, state.2.or (stopped state.1 part))

def keptName (parts : List Text) : Option Text := (parts.foldl keptStep ([], none)).2

theorem foldl_keptStep_fst (parts names : List Text) (kept : Option Text) :
    (parts.foldl keptStep (names, kept)).1 = parts.foldl collapseStep names := by
  induction parts generalizing names kept with
  | nil => rfl
  | cons part parts ih => exact ih _ _

/-- A name of a guest path. -/
def Named (part : Text) : Prop := part ≠ [] ∧ '/' ∉ part ∧ '\x00' ∉ part

theorem Named.name (h : Named part) (hdot : part ≠ ['.'])
    (hdots : part ≠ ['.', '.']) : ∃ hplain, Mount.Name.of? part = some ⟨part, hplain⟩ := by
  have hplain : Mount.Plain part := by
    refine ⟨h.1, hdot, hdots, ?_⟩
    rw [List.all_eq_true]
    intro c hc
    have hslash : c ≠ '/' := fun heq => h.2.1 (heq ▸ hc)
    have hnul : c ≠ '\x00' := fun heq => h.2.2 (heq ▸ hc)
    simp [hslash, hnul]
  exact ⟨hplain, dif_pos hplain⟩

/-- The texts of the components of a normalized path. -/
def texts (path : Mount.Path) : List Text := path.map fun name => name.text

variable {names parts pending : List Text} {path : Mount.Path} {kept : Text}

/-- A name that does not go up is added to the path, and a `.` is left out. -/
theorem normalizeStep_plain (hdots : part ≠ ['.', '.']) (hpath : texts path = names)
    (h : Named part) : texts (Mount.normalizeStep path part) = collapseStep names part := by
  unfold Mount.normalizeStep collapseStep
  rw [if_neg hdots]
  by_cases hdot : part = ['.']
  · have hnone : Mount.Name.of? ['.'] = none := by decide
    rw [if_pos hdot, hdot, hnone]
    exact hpath
  obtain ⟨hplain, hname⟩ := h.name hdot hdots
  rw [if_neg hdot, if_neg hdots, hname]
  simp only [texts, List.map_append, List.map_cons, List.map_nil] at hpath ⊢
  rw [hpath]

/-- Behind a name that stops every `..`, a path is normalized as it is collapsed. -/
theorem normalizeStep_kept (hkept : Mount.byteLength kept = 1)
    (hpath : texts path = kept :: names) (h : Named part) :
    texts (Mount.normalizeStep path part) = kept :: collapseStep names part := by
  by_cases hdots : part = ['.', '.']
  · unfold Mount.normalizeStep collapseStep
    rw [if_pos hdots, hdots, if_neg (by decide), if_pos rfl]
    cases path with
    | nil => cases hpath
    | cons drive rest =>
      simp only [texts, List.map_cons, List.cons.injEq] at hpath
      obtain ⟨rfl, rfl⟩ := hpath
      cases rest with
      | nil => simp [texts, hkept]
      | cons name rest => simp [texts, List.map_dropLast]
  · refine (normalizeStep_plain hdots hpath h).trans ?_
    unfold collapseStep
    rw [if_neg hdots, if_neg hdots]
    split <;> rfl

theorem normalizeStep_texts {state : List Text × Option Text}
    (hpath : texts path = state.2.toList ++ state.1)
    (hkept : ∀ name, state.2 = some name → Mount.byteLength name = 1) (h : Named part) :
    texts (Mount.normalizeStep path part) = (keptStep state part).2.toList ++ (keptStep state part).1 ∧
      ∀ name, (keptStep state part).2 = some name → Mount.byteLength name = 1 := by
  obtain ⟨names, kept⟩ := state
  cases kept with
  | some kept => exact ⟨normalizeStep_kept (hkept kept rfl) hpath h, hkept⟩
  | none =>
    simp only [Option.toList_none, List.nil_append] at hpath
    simp only [keptStep, Option.none_or]
    by_cases hdots : part = ['.', '.']
    · unfold Mount.normalizeStep collapseStep stopped
      rw [if_pos hdots, hdots, if_neg (by decide), if_pos rfl]
      subst hpath
      cases path with
      | nil => exact ⟨rfl, nofun⟩
      | cons drive rest =>
        cases rest with
        | nil =>
          by_cases hone : Mount.byteLength drive.text = 1 <;> simp [texts, hone]
        | cons name rest => simp [texts, List.map_dropLast]
    · rw [stopped_of_ne names hdots]
      exact ⟨normalizeStep_plain hdots hpath h, nofun⟩

theorem foldl_normalizeStep (h : ∀ part ∈ parts, Named part)
    (state : List Text × Option Text) (hpath : texts path = state.2.toList ++ state.1)
    (hkept : ∀ name, state.2 = some name → Mount.byteLength name = 1) :
    texts (parts.foldl Mount.normalizeStep path) =
      (parts.foldl keptStep state).2.toList ++ (parts.foldl keptStep state).1 ∧
      ∀ name, (parts.foldl keptStep state).2 = some name → Mount.byteLength name = 1 := by
  induction parts generalizing path state with
  | nil => exact ⟨hpath, hkept⟩
  | cons part parts ih =>
    obtain ⟨hpath', hkept'⟩ := normalizeStep_texts hpath hkept (h part List.mem_cons_self)
    exact ih (fun p hp => h p (List.mem_cons_of_mem _ hp)) _ hpath' hkept'

theorem foldl_normalizeStep_filter (parts : List Text) (path : Mount.Path) :
    parts.foldl Mount.normalizeStep path =
      (parts.filter fun part => part ≠ []).foldl Mount.normalizeStep path := by
  induction parts generalizing path with
  | nil => rfl
  | cons part parts ih =>
    by_cases hpart : part = []
    · have hsame : Mount.normalizeStep path part = path := by
        subst hpart
        rfl
      rw [List.foldl_cons, hsame, ih, List.filter_cons_of_neg (by simpa using hpart)]
    · rw [List.foldl_cons, ih, List.filter_cons_of_pos (by simpa using hpart), List.foldl_cons]

variable {c letter : Char} {text : Text}

theorem mem_splitOnP_subset {p : Char → Bool} (h : part ∈ text.splitOnP p)
    (hc : c ∈ part) : c ∈ text := by
  rw [List.splitOnP_eq_splitOnPPrepend] at h
  have hmem : ∀ (text acc : Text), part ∈ text.splitOnPPrepend p acc → c ∈ acc ∨ c ∈ text := by
    intro text
    induction text with
    | nil =>
      intro acc hpart
      simp only [List.splitOnPPrepend_nil, List.mem_singleton] at hpart
      rw [hpart] at hc
      exact .inl (List.mem_reverse.mp hc)
    | cons a rest ih =>
      intro acc hpart
      rw [List.splitOnPPrepend_cons_eq_if] at hpart
      split at hpart
      · rcases List.mem_cons.mp hpart with rfl | hpart
        · exact .inl (List.mem_reverse.mp hc)
        · rcases ih [] hpart with hacc | hrest
          · cases hacc
          · exact .inr (List.mem_cons_of_mem _ hrest)
      · rcases ih (a :: acc) hpart with hacc | hrest
        · rcases List.mem_cons.mp hacc with rfl | hacc
          · exact .inr List.mem_cons_self
          · exact .inl hacc
        · exact .inr (List.mem_cons_of_mem _ hrest)
  exact (hmem text [] h).resolve_left (by simp)

theorem named_guestComponents (hnul : '\x00' ∉ text) :
    ∀ part ∈ guestComponents text, Named part := by
  intro part hpart
  obtain ⟨hne, hslash⟩ := of_mem_guestComponents hpart
  exact ⟨hne, hslash, fun hc => hnul (mem_splitOnP_subset (List.mem_filter.mp hpart).1 hc)⟩

theorem normalize_eq (habs : isAbsolute text = true) (hnul : '\x00' ∉ text) :
    Mount.normalize text = .ok ((guestComponents text).foldl Mount.normalizeStep []) := by
  have hhead : text.head? = some '/' := by simpa [isAbsolute] using habs
  rw [Mount.normalize, if_neg (by simp [hhead, hnul]), foldl_normalizeStep_filter]
  rfl

theorem normalize_texts (h : ∀ part ∈ parts, Named part) :
    texts (parts.foldl Mount.normalizeStep []) = (keptName parts).toList ++ collapse parts := by
  have hfold := (foldl_normalizeStep h ([], none)
    (rfl : texts [] = (none : Option Text).toList ++ []) nofun).1
  rw [foldl_keptStep_fst] at hfold
  exact hfold

theorem foldl_normalizeStep_kept (h : ∀ part ∈ parts, Named part)
    (hkept : Mount.byteLength kept = 1) (hpath : texts path = kept :: names) :
    texts (parts.foldl Mount.normalizeStep path) = kept :: parts.foldl collapseStep names := by
  induction parts generalizing path names with
  | nil => exact hpath
  | cons part parts ih =>
    exact ih (fun p hp => h p (List.mem_cons_of_mem _ hp))
      (normalizeStep_kept hkept hpath (h part List.mem_cons_self))

theorem utf8Size_alphabetic (h : isAlphabetic c = true) : c.utf8Size = 1 := by
  have hle : c.val ≤ 0x7f := by
    simp only [isAlphabetic, Bool.or_eq_true, Bool.and_eq_true, decide_eq_true_eq] at h
    rcases h with h | h
    · exact UInt32.le_trans h.2 (by decide)
    · exact UInt32.le_trans h.2 (by decide)
  unfold Char.utf8Size
  exact if_pos hle

theorem driveLetter_some (h : driveLetter part = some letter) :
    part = [letter] ∧ Mount.byteLength part = 1 ∧ part ≠ ['.'] ∧ part ≠ ['.', '.'] := by
  unfold driveLetter at h
  split at h
  · rename_i c
    split at h
    · rename_i halpha
      cases h
      refine ⟨rfl, ?_, ?_, by simp⟩
      · simp [Mount.byteLength, utf8Size_alphabetic halpha]
      · rintro hdot
        cases hdot
        exact absurd halpha (by decide)
    · cases h
  · cases h

theorem normalize_drive {rest : List Text} (h : ∀ p ∈ part :: rest, Named p)
    (hletter : driveLetter part = some letter) :
    texts ((part :: rest).foldl Mount.normalizeStep []) = part :: collapse rest := by
  obtain ⟨-, hone, hdot, hdots⟩ := driveLetter_some hletter
  apply foldl_normalizeStep_kept (fun p hp => h p (List.mem_cons_of_mem _ hp)) hone
  obtain ⟨hplain, hname⟩ := (h part List.mem_cons_self).name hdot hdots
  unfold Mount.normalizeStep
  rw [if_neg hdots, hname]
  rfl

theorem nul_notMem_text (path : Mount.Path) : '\x00' ∉ path.text := by
  have hname : ∀ name : Mount.Name, '\x00' ∉ name.text := by
    intro name hc
    have hall := List.all_eq_true.mp name.plain.2.2.2 _ hc
    simp at hall
  have hjoined : ∀ path : Mount.Path, '\x00' ∉ path.joined := by
    intro path
    induction path with
    | nil => simp [Mount.Path.joined]
    | cons name rest ih =>
      cases rest with
      | nil => exact hname name
      | cons name' rest =>
        intro hc
        simp only [Mount.Path.joined] at hc
        rcases List.mem_append.mp hc with hc | hc
        · exact hname name hc
        · rcases List.mem_cons.mp hc with hc | hc
          · exact absurd hc (by decide)
          · exact ih hc
  intro hc
  rcases List.mem_cons.mp hc with hc | hc
  · exact absurd hc (by decide)
  · exact hjoined path hc

theorem guestComponents_text (path : Mount.Path) : guestComponents path.text = texts path := by
  have hjoined : ∀ path : Mount.Path,
      (path.joined.splitOnP fun c => c = '/').filter (fun part => part ≠ []) = texts path := by
    intro path
    induction path with
    | nil => rfl
    | cons name rest ih =>
      have hslash : ∀ c ∈ name.text, decide (c = '/') = false := by
        intro c hc
        simpa using name.noSlash c hc
      have hne : name.text ≠ [] := name.plain.1
      cases rest with
      | nil =>
        rw [Mount.Path.joined, List.splitOnP_eq_singleton hslash]
        simp [texts, hne]
      | cons name' rest =>
        rw [Mount.Path.joined, List.splitOnP_append_cons_of_forall_mem hslash _ (by simp),
          List.filter_cons_of_pos (by simpa using hne), ih]
        · rfl
        · simp
  have hroot : ('/' :: path.joined).splitOnP (fun c => c = '/') =
      [] :: path.joined.splitOnP fun c => c = '/' := by
    have hsplit : ([] ++ '/' :: path.joined).splitOnP (fun c => decide (c = '/')) =
        [] :: path.joined.splitOnP fun c => decide (c = '/') :=
      List.splitOnP_append_cons_of_forall_mem (by simp) '/' (by simp) path.joined
    exact hsplit
  rw [guestComponents, Mount.Path.text, hroot, List.filter_cons_of_neg (by simp)]
  exact hjoined path

/-! ## Places -/

/-- The place below `base` that the names lead to. -/
def standing (base : HostPath) (names : List Text) : Place :=
  ⟨{ base with components := base.components ++ names.map escapeComponent }, names.length⟩

theorem standing_nil (base : HostPath) : standing base [] = ⟨base, 0⟩ := by
  simp [standing]

theorem pushComponent_standing (base : HostPath) (names : List Text) (h : Named part) :
    (standing base names).pushComponent part = standing base (collapseStep names part) := by
  unfold Place.pushComponent collapseStep
  by_cases hdot : part = ['.']
  · rw [if_pos hdot, if_pos hdot]
  rw [if_neg hdot, if_neg hdot]
  by_cases hdots : part = ['.', '.']
  · rw [if_pos hdots, if_pos hdots]
    by_cases hnames : names = []
    · subst hnames
      rw [if_neg (by simp [standing])]
      rfl
    have hdepth : (standing base names).depth ≠ 0 := by
      simpa [standing] using hnames
    rw [if_pos hdepth]
    simp only [standing, HostPath.pop, List.length_dropLast, Place.mk.injEq, and_true]
    rw [List.dropLast_append_of_ne_nil (by simpa using hnames), ← List.map_dropLast]
  · rw [if_neg hdots, if_neg hdots, (escapeComponent_hostName h.1 h.2.1).push]
    simp [standing]

theorem foldl_standing (h : ∀ part ∈ parts, Named part) (base : HostPath) (names : List Text) :
    parts.foldl Place.pushComponent (standing base names) =
      standing base (parts.foldl collapseStep names) := by
  induction parts generalizing names with
  | nil => rfl
  | cons part parts ih =>
    rw [List.foldl_cons, pushComponent_standing base names (h part List.mem_cons_self)]
    exact ih (fun p hp => h p (List.mem_cons_of_mem _ hp)) _

/-! ## Resolving without symbolic links -/

/-- No lookup finds a symbolic link. -/
def NoLinks (host : Host) : Prop := ∀ path target, host.link path ≠ .ok (some target)

/-- The checks on the way pass: everything before the last component is no file. -/
def Passable (host : Host) (followFinal : Bool) (place : Place) (pending : List Text) : Prop :=
  ∀ pre suf, pending = pre ++ suf → pre ≠ [] → (followFinal = true ∨ suf ≠ []) →
    host.symlinkComponent (pre.foldl Place.pushComponent place).resolved (!suf.isEmpty) = .ok none

variable {host : Host}

theorem symlinkComponent_relax {path : HostPath} {b : Bool}
    (h : host.symlinkComponent path true = .ok none) : host.symlinkComponent path b = .ok none := by
  unfold Host.symlinkComponent at h ⊢
  cases hlink : host.link path with
  | error e =>
    rw [hlink] at h
    cases h
  | ok target =>
    rw [hlink] at h
    cases target with
    | some target => cases h
    | none =>
      cases hfile : host.nondirectory path with
      | true => simp [hfile] at h
      | false => simp

variable {followFinal : Bool}

theorem Passable.cons {place : Place} :
    Passable host followFinal place (part :: pending) ↔ ((followFinal = true ∨ pending ≠ []) →
        host.symlinkComponent (place.pushComponent part).resolved (!pending.isEmpty) = .ok none) ∧
      Passable host followFinal (place.pushComponent part) pending := by
  constructor
  · intro h
    refine ⟨fun hcheck => h [part] pending rfl (by simp) hcheck, ?_⟩
    intro pre suf hsplit hpre hcheck
    exact h (part :: pre) suf (by rw [hsplit]; rfl) (by simp) hcheck
  · rintro ⟨hfirst, hrest⟩ pre suf hsplit hpre hcheck
    cases pre with
    | nil => exact absurd rfl hpre
    | cons head pre =>
      simp only [List.cons_append, List.cons.injEq] at hsplit
      obtain ⟨rfl, rfl⟩ := hsplit
      cases pre with
      | nil => exact hfirst hcheck
      | cons head' pre => exact hrest (head' :: pre) suf rfl (by simp) hcheck

theorem resolveLoop_ok_iff (hlinks : NoLinks host) {root : HostPath} {allowDrives : Bool}
    {followed : Nat} {place : Place} {r : Place × Nat} :
    resolveLoop host root allowDrives followFinal followed pending place = .ok r ↔
      r = (pending.foldl Place.pushComponent place, followed) ∧
        Passable host followFinal place pending := by
  induction pending generalizing place with
  | nil =>
    rw [resolveLoop]
    constructor
    · intro h
      cases h
      refine ⟨rfl, ?_⟩
      intro pre suf hsplit hpre
      exact absurd (List.append_eq_nil_iff.mp hsplit.symm).1 hpre
    · rintro ⟨rfl, -⟩
      rfl
  | cons part pending ih =>
    rw [resolveLoop, Passable.cons, List.foldl_cons]
    by_cases hlast : (!followFinal && pending.isEmpty) = true
    · rw [if_pos hlast, ih]
      have hskip : ¬(followFinal = true ∨ pending ≠ []) := by
        simp only [Bool.and_eq_true, Bool.not_eq_true', List.isEmpty_iff] at hlast
        simp [hlast]
      constructor
      · rintro ⟨hr, hpass⟩
        exact ⟨hr, fun hcheck => absurd hcheck hskip, hpass⟩
      · rintro ⟨hr, -, hpass⟩
        exact ⟨hr, hpass⟩
    rw [if_neg hlast]
    have hcheck : followFinal = true ∨ pending ≠ [] := by
      by_contra hnot
      simp only [not_or, not_not, Bool.not_eq_true] at hnot
      exact hlast (by simp [hnot])
    cases hlink : host.symlinkComponent (place.pushComponent part).resolved (!pending.isEmpty) with
    | error e => simp [hcheck]
    | ok target =>
      cases target with
      | none => simp [ih]
      | some target =>
        exfalso
        unfold Host.symlinkComponent at hlink
        cases hfound : host.link (place.pushComponent part).resolved with
        | error e =>
          rw [hfound] at hlink
          cases hlink
        | ok found =>
          rw [hfound] at hlink
          cases found with
          | some found => exact hlinks _ _ hfound
          | none =>
            dsimp only at hlink
            split at hlink <;> cases hlink

/-! ## The names on the way -/

theorem collapse_concat (parts : List Text) (part : Text) :
    collapse (parts ++ [part]) = collapseStep (collapse parts) part := by
  simp [collapse]

theorem mem_collapse {name : Text} (h : name ∈ collapse parts) :
    name ∈ parts ∧ name ≠ ['.'] ∧ name ≠ ['.', '.'] := by
  induction parts using List.reverseRecOn with
  | nil => cases h
  | append_singleton parts part ih =>
    rw [collapse_concat] at h
    unfold collapseStep at h
    split at h
    · obtain ⟨hmem, hplain⟩ := ih h
      exact ⟨List.mem_append_left _ hmem, hplain⟩
    rename_i hdot
    split at h
    · obtain ⟨hmem, hplain⟩ := ih ((List.dropLast_sublist _).mem h)
      exact ⟨List.mem_append_left _ hmem, hplain⟩
    rename_i hdots
    rcases List.mem_append.mp h with h | h
    · obtain ⟨hmem, hplain⟩ := ih h
      exact ⟨List.mem_append_left _ hmem, hplain⟩
    · rw [List.mem_singleton.mp h]
      exact ⟨by simp, hdot, hdots⟩

theorem collapse_plain
    (h : ∀ name ∈ names, name ≠ ['.'] ∧ name ≠ ['.', '.']) : collapse names = names := by
  induction names using List.reverseRecOn with
  | nil => rfl
  | append_singleton names name ih =>
    obtain ⟨hdot, hdots⟩ := h name (by simp)
    rw [collapse_concat, ih (fun n hn => h n (List.mem_append_left _ hn)), collapseStep,
      if_neg hdot, if_neg hdots]

theorem collapse_passes (parts : List Text) {i : Nat} (hpos : 0 < i)
    (hi : i ≤ (collapse parts).length) :
    ∃ pre suf, parts = pre ++ suf ∧ pre ≠ [] ∧ collapse pre = (collapse parts).take i := by
  induction parts using List.reverseRecOn with
  | nil => exact absurd hi (by simp [collapse]; omega)
  | append_singleton parts part ih =>
    rw [collapse_concat] at hi ⊢
    have hbefore : i ≤ (collapse parts).length →
        (collapseStep (collapse parts) part).take i = (collapse parts).take i →
        ∃ pre suf, parts ++ [part] = pre ++ suf ∧ pre ≠ [] ∧
          collapse pre = (collapseStep (collapse parts) part).take i := by
      intro hle htake
      obtain ⟨pre, suf, hsplit, hpre, hcollapse⟩ := ih hle
      exact ⟨pre, suf ++ [part], by rw [hsplit, List.append_assoc], hpre,
        hcollapse.trans htake.symm⟩
    unfold collapseStep at hi hbefore ⊢
    by_cases hdot : part = ['.']
    · simp only [if_pos hdot] at hi hbefore ⊢
      exact hbefore hi trivial
    by_cases hdots : part = ['.', '.']
    · simp only [if_neg hdot, if_pos hdots] at hi hbefore ⊢
      rw [List.length_dropLast] at hi
      apply hbefore (by omega)
      rw [List.dropLast_eq_take, List.take_take, Nat.min_eq_left hi]
    simp only [if_neg hdot, if_neg hdots] at hi hbefore ⊢
    by_cases hle : i ≤ (collapse parts).length
    · exact hbefore hle (List.take_append_of_le_length hle)
    refine ⟨parts ++ [part], [], by simp, by simp, ?_⟩
    rw [collapse_concat, collapseStep, if_neg hdot, if_neg hdots, List.take_of_length_le]
    simp only [List.length_append, List.length_singleton] at hi ⊢
    omega

variable {base base' : HostPath}

theorem Passable.collapse (hnamed : ∀ part ∈ parts, Named part)
    (h : Passable host followFinal (standing base []) parts) :
    Passable host followFinal (standing base []) (Path.collapse parts) := by
  intro pre suf hsplit hpre hcheck
  have hplain : ∀ name ∈ pre, Named name ∧ name ≠ ['.'] ∧ name ≠ ['.', '.'] := by
    intro name hname
    have hmem : name ∈ parts ∧ name ≠ ['.'] ∧ name ≠ ['.', '.'] :=
      mem_collapse (hsplit ▸ List.mem_append_left _ hname)
    exact ⟨hnamed name hmem.1, hmem.2⟩
  have hpreLength : 0 < pre.length := List.length_pos_iff.mpr hpre
  have hlength : pre.length ≤ (Path.collapse parts).length := by
    rw [hsplit, List.length_append]
    omega
  have htake : (Path.collapse parts).take pre.length = pre := by
    rw [hsplit, List.take_left]
  obtain ⟨pre', suf', hsplit', hpre', hcollapse⟩ := collapse_passes parts hpreLength hlength
  rw [htake] at hcollapse
  have hplace : pre.foldl Place.pushComponent (standing base []) =
      pre'.foldl Place.pushComponent (standing base []) := by
    have hleft := foldl_standing (fun name hname => (hplain name hname).1) base []
    have hnamed' : ∀ part ∈ pre', Named part :=
      fun part hpart => hnamed part (hsplit' ▸ List.mem_append_left _ hpart)
    have hright := foldl_standing hnamed' base []
    have hsame : Path.collapse pre = Path.collapse pre' := by
      rw [collapse_plain fun name hname => (hplain name hname).2, hcollapse]
    rw [hleft, hright]
    exact congrArg (standing base) hsame
  rw [hplace]
  cases suf' with
  | cons part suf' =>
    exact symlinkComponent_relax (h pre' (part :: suf') hsplit' hpre' (.inr (by simp)))
  | nil =>
    -- the whole path is needed, so nothing is left behind the names either
    have hwhole : suf = [] := by
      have heq : Path.collapse parts = pre := by
        rw [hsplit', List.append_nil, hcollapse]
      rw [heq] at hsplit
      simpa using hsplit
    subst hwhole
    rcases hcheck with hfollow | hne
    · exact h pre' [] hsplit' hpre' (.inl hfollow)
    · exact absurd rfl hne

/-! ## Where normalizing changes nothing -/

/-- The host path that a guest path resolves to. -/
def hostPath (host : Host) (confined : Bool) (root : HostPath) (followFinal : Bool)
    (text : Text) : Except PathError HostPath :=
  (resolveLinuxPathComponents host confined root text followFinal).map fun r => r.1.resolved

/-- Where the path resolves to without its normalization, its normalization leads there. -/
def SameHostPath (host : Host) (confined : Bool) (root : HostPath) (followFinal : Bool)
    (text : Text) : Prop :=
  ∀ place, hostPath host confined root followFinal text = .ok place →
    ∃ path, Mount.normalize text = .ok path ∧
      hostPath host confined root followFinal path.text = .ok place

/-- In a confined process no `..` comes to a one-byte name alone.  In another one the first
component selects a drive; or no `..` comes to such a name and what is left does not begin
with a drive letter; or the name is the letter of the drive that is the system root. -/
def Agrees (confined : Bool) (root : HostPath) (text : Text) : Prop :=
  let parts := guestComponents text
  if confined then keptName parts = none
  else (parts.head?.bind driveLetter).isSome ∨ match keptName parts with
    | none => (collapse parts).head?.bind driveLetter = none
    | some name => ∃ letter, driveLetter name = some letter ∧ root = drivePath letter

/-- The root that a path selects, and the components below it. -/
theorem hostPath_ok_iff (hlinks : NoLinks host) {confined : Bool} {root : HostPath}
    (habs : isAbsolute text = true) (hnul : '\x00' ∉ text)
    (hselect : selectRoot root (!confined) true (guestComponents text) = (base, pending))
    (hnamed : ∀ part ∈ pending, Named part) {place : HostPath} :
    hostPath host confined root followFinal text = .ok place ↔
      place = (standing base (collapse pending)).resolved ∧
        Passable host followFinal (standing base []) pending := by
  have hcontains : text.contains '\x00' = false := by simpa using hnul
  unfold hostPath resolveLinuxPathComponents
  rw [hcontains, if_neg (by simp), habs, hselect]
  dsimp only
  rw [← standing_nil]
  have hplace := foldl_standing hnamed base []
  constructor
  · intro h
    cases hloop : resolveLoop host root (!confined) followFinal 0 pending (standing base []) with
    | error e =>
      rw [hloop] at h
      cases h
    | ok r =>
      rw [hloop] at h
      obtain ⟨rfl, hpass⟩ := (resolveLoop_ok_iff hlinks).mp hloop
      injection h with h
      rw [← h, hplace]
      exact ⟨rfl, hpass⟩
  · rintro ⟨rfl, hpass⟩
    rw [(resolveLoop_ok_iff hlinks).mpr ⟨rfl, hpass⟩, hplace]
    rfl

theorem selectRoot_confined (root : HostPath) (parts : List Text) :
    selectRoot root (!true) true parts = (root, parts) := rfl

theorem selectRoot_drive (root : HostPath) (rest : List Text) (h : driveLetter part = some letter) :
    selectRoot root (!false) true (part :: rest) = (drivePath letter, rest) := by
  simp [selectRoot, h]

theorem selectRoot_root (root : HostPath) (h : parts.head?.bind driveLetter = none) :
    selectRoot root (!false) true parts = (root, parts) := by
  simp [selectRoot, h]

/-- A host on which everything is a directory. -/
def openHost : Host := ⟨fun _ => .ok none, fun _ => false⟩

theorem noLinks_openHost : NoLinks openHost := by
  intro path target h
  cases h

theorem passable_openHost (followFinal : Bool) (place : Place) (parts : List Text) :
    Passable openHost followFinal place parts := by
  intro pre suf _ _ _
  simp [Host.symlinkComponent, openHost]

theorem standing_resolved_inj {names' : List Text}
    (h : (standing base names).resolved = (standing base' names').resolved) :
    base.volume = base'.volume ∧ base.rooted = base'.rooted ∧
      base.components ++ names.map escapeComponent =
        base'.components ++ names'.map escapeComponent := by
  simpa [standing] using h

theorem standing_length {names' : List Text}
    (h : (standing base names).resolved = (standing base' names').resolved) :
    base.components.length + names.length = base'.components.length + names'.length := by
  have hlength := congrArg List.length (standing_resolved_inj h).2.2
  simpa using hlength

section Same

variable {confined : Bool} {root : HostPath} {text : Text} {path : Mount.Path}
  {base base' : HostPath} {parts names : List Text}

/-- The normalized path of a path, which selects `base'` and is left with plain `names`. -/
theorem hostPath_normalized_iff (hlinks : NoLinks host)
    (hnames : selectRoot root (!confined) true (texts path) = (base', names))
    (hsub : ∀ name ∈ names, name ∈ texts path) {place : HostPath} :
    hostPath host confined root followFinal path.text = .ok place ↔
      place = (standing base' names).resolved ∧
        Passable host followFinal (standing base' []) names := by
  have hplain : ∀ name ∈ texts path, Named name ∧ name ≠ ['.'] ∧ name ≠ ['.', '.'] := by
    intro text htext
    obtain ⟨name, -, rfl⟩ := List.mem_map.mp htext
    have hall := List.all_eq_true.mp name.plain.2.2.2
    refine ⟨⟨name.plain.1, fun hc => ?_, fun hc => ?_⟩, name.plain.2.1, name.plain.2.2.1⟩
    · exact absurd (hall _ hc) (by simp)
    · exact absurd (hall _ hc) (by simp)
  rw [← guestComponents_text] at hnames
  rw [hostPath_ok_iff hlinks rfl (nul_notMem_text path) hnames
    fun name hname => (hplain name (hsub name hname)).1,
    collapse_plain fun name hname => (hplain name (hsub name hname)).2]

variable (habs : isAbsolute text = true) (hnul : '\x00' ∉ text)
  (hpath : Mount.normalize text = .ok path)
  (hparts : selectRoot root (!confined) true (guestComponents text) = (base, parts))
  (hnamed : ∀ part ∈ parts, Named part)
  (hnames : selectRoot root (!confined) true (texts path) = (base', names))
  (hsub : ∀ name ∈ names, name ∈ texts path)

include habs hnul hpath hparts hnamed hnames hsub

theorem same_of_eq (hbase : base' = base) (hleft : names = collapse parts) (followFinal : Bool)
    (hlinks : NoLinks host) : SameHostPath host confined root followFinal text := by
  intro place hplace
  obtain ⟨rfl, hpass⟩ := (hostPath_ok_iff hlinks habs hnul hparts hnamed).mp hplace
  refine ⟨path, hpath, (hostPath_normalized_iff hlinks hnames hsub).mpr ⟨?_, ?_⟩⟩
  · rw [hbase, hleft]
  · rw [hbase, hleft]
    exact hpass.collapse hnamed

theorem eq_of_same (h : SameHostPath openHost confined root followFinal text) :
    (standing base' names).resolved = (standing base (collapse parts)).resolved := by
  obtain ⟨path', hpath', hplace⟩ := h _
    ((hostPath_ok_iff noLinks_openHost habs hnul hparts hnamed).mpr ⟨rfl, passable_openHost _ _ _⟩)
  rw [hpath] at hpath'
  cases hpath'
  exact ((hostPath_normalized_iff noLinks_openHost hnames hsub).mp hplace).1.symm

end Same

/-- Normalizing an absolute path changes nothing, on every host without symbolic links on
it, exactly on the paths on which the two readings agree. -/
theorem normalize_agrees_iff (confined : Bool) (root : HostPath) (followFinal : Bool)
    {text : Text} (habs : isAbsolute text = true) (hnul : '\x00' ∉ text) :
    (∀ host, NoLinks host → SameHostPath host confined root followFinal text) ↔
      Agrees confined root text := by
  have hnamed := named_guestComponents hnul
  have hpath := normalize_eq habs hnul
  have htexts := normalize_texts hnamed
  unfold Agrees
  dsimp only
  cases confined with
  | true =>
    have hparts := selectRoot_confined root (guestComponents text)
    have hnames := selectRoot_confined root
      (texts ((guestComponents text).foldl Mount.normalizeStep []))
    constructor
    · intro h
      have heq := eq_of_same habs hnul hpath hparts hnamed hnames (fun _ hname => hname)
        (h openHost noLinks_openHost)
      have hlength := standing_length heq
      rw [htexts, List.length_append] at hlength
      cases hkept : keptName (guestComponents text) with
      | none => rfl
      | some name =>
        rw [hkept] at hlength
        simp only [Option.toList_some, List.length_singleton] at hlength
        omega
    · intro hkept host hlinks
      rw [if_pos rfl] at hkept
      rw [hkept] at htexts
      exact same_of_eq habs hnul hpath hparts hnamed hnames (fun _ hname => hname) rfl htexts
        followFinal hlinks
  | false =>
    rw [if_neg (by simp)]
    cases hdrive : (guestComponents text).head?.bind driveLetter with
    | some letter =>
      refine ⟨fun _ => .inl rfl, fun _ host hlinks => ?_⟩
      obtain ⟨part, hpart, hletter⟩ := Option.bind_eq_some_iff.mp hdrive
      obtain ⟨rest, hrest⟩ := List.head?_eq_some_iff.mp hpart
      have hparts := selectRoot_drive root rest hletter
      rw [hrest] at hnamed
      have hnormal := normalize_drive hnamed hletter
      have hnames := selectRoot_drive root (collapse rest) hletter
      rw [← hnormal] at hnames
      rw [hrest] at hpath
      rw [← hrest] at hparts
      apply same_of_eq habs hnul hpath hparts
        (fun p hp => hnamed p (List.mem_cons_of_mem _ hp)) hnames _ rfl rfl followFinal hlinks
      intro name hname
      rw [hnormal]
      exact List.mem_cons_of_mem _ hname
    | none =>
      have hparts := selectRoot_root root hdrive
      rw [Option.isSome_none, or_iff_right (by simp)]
      generalize (guestComponents text).foldl Mount.normalizeStep [] = path at hpath htexts
      cases hkept : keptName (guestComponents text) with
      | none =>
        rw [hkept, Option.toList_none, List.nil_append] at htexts
        dsimp only
        constructor
        · intro h
          cases hletter : (collapse (guestComponents text)).head?.bind driveLetter with
          | none => rfl
          | some letter =>
            -- the normalized path selects a drive, the path itself does not
            obtain ⟨name, hname, hdriveLetter⟩ := Option.bind_eq_some_iff.mp hletter
            obtain ⟨rest, hrest⟩ := List.head?_eq_some_iff.mp hname
            have hnames := selectRoot_drive root rest hdriveLetter
            rw [← hrest, ← htexts] at hnames
            have hsub : ∀ n ∈ rest, n ∈ texts path := by
              intro n hn
              rw [htexts, hrest]
              exact List.mem_cons_of_mem _ hn
            have hlength := standing_length (eq_of_same habs hnul hpath hparts hnamed hnames hsub
              (h openHost noLinks_openHost))
            rw [hrest, List.length_cons] at hlength
            simp only [drivePath, List.length_nil] at hlength
            omega
        · intro hplain host hlinks
          have hnames := selectRoot_root root (htexts ▸ hplain)
          exact same_of_eq habs hnul hpath hparts hnamed hnames (fun _ hname => hname) rfl htexts
            followFinal hlinks
      | some kept =>
        rw [hkept, Option.toList_some, List.singleton_append] at htexts
        dsimp only
        cases hletter : driveLetter kept with
        | none =>
          refine ⟨fun h => ?_, fun h => ?_⟩
          · have hhead : (texts path).head?.bind driveLetter = none := by
              rw [htexts]
              exact hletter
            have hnames := selectRoot_root root hhead
            have hlength := standing_length (eq_of_same habs hnul hpath hparts hnamed hnames
              (fun _ hname => hname) (h openHost noLinks_openHost))
            rw [htexts, List.length_cons] at hlength
            omega
          · obtain ⟨letter, hsome, -⟩ := h
            cases hsome
        | some letter =>
          have hnames := selectRoot_drive root (collapse (guestComponents text)) hletter
          rw [← htexts] at hnames
          have hsub : ∀ n ∈ collapse (guestComponents text), n ∈ texts path := by
            intro n hn
            rw [htexts]
            exact List.mem_cons_of_mem _ hn
          constructor
          · intro h
            have heq := eq_of_same habs hnul hpath hparts hnamed hnames hsub
              (h openHost noLinks_openHost)
            obtain ⟨hvolume, hrooted, hcomponents⟩ := standing_resolved_inj heq
            refine ⟨letter, rfl, ?_⟩
            have hnil : root.components = [] := by
              have hlength := standing_length heq
              apply List.eq_nil_of_length_eq_zero
              simp only [drivePath, List.length_nil] at hlength
              omega
            cases root
            simp only [drivePath] at hvolume hrooted hnil ⊢
            rw [← hvolume, ← hrooted, hnil]
          · rintro ⟨letter', hsome, hroot⟩ host hlinks
            cases hsome
            exact same_of_eq habs hnul hpath hparts hnamed hnames hsub hroot.symm rfl
              followFinal hlinks

/-- Unconfined, `..` stays in the root of a drive in both readings. -/
theorem normalize_agrees_drive :
    SameHostPath openHost false hostRoot true ['/', 'd', '/', '.', '.', '/', 'a'] :=
  (normalize_agrees_iff false hostRoot true rfl (by decide)).mpr (.inl rfl) openHost
    noLinks_openHost

/-- Confined, `/c/..` is the root of the guest, and its normalization the directory `/c`. -/
theorem normalize_confined_differs : NoLinks openHost ∧
      hostPath openHost true hostRoot true ['/', 'c', '/', '.', '.'] = .ok hostRoot ∧
      Mount.normalize ['/', 'c', '/', '.', '.'] = .ok [⟨['c'], by decide⟩] ∧
      hostPath openHost true hostRoot true ['/', 'c'] = .ok ⟨['E', ':'], true, [['h'], ['c']]⟩ := by
  refine ⟨noLinks_openHost, ?_, by decide, ?_⟩
  · apply (hostPath_ok_iff noLinks_openHost rfl (by decide) (selectRoot_confined hostRoot _)
      (named_guestComponents (by decide))).mpr
    exact ⟨by decide, passable_openHost _ _ _⟩
  · apply (hostPath_ok_iff noLinks_openHost rfl (by decide) (selectRoot_confined hostRoot _)
      (named_guestComponents (by decide))).mpr
    exact ⟨by decide, passable_openHost _ _ _⟩

end Kinakaze.Path
