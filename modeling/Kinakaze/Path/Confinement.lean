import Kinakaze.Path.Resolve

/-!
# Guest paths stay below the system root

* `Below.pushComponent`, `Below.follow`: the steps of the resolution.
-/

namespace Kinakaze.Path

variable {host : Host} {root : HostPath}

/-! ## Components -/

theorem of_mem_splitOnPPrepend {α : Type} {p : α → Bool} {xs acc part : List α}
    (hacc : ∀ x ∈ acc, p x = false) (h : part ∈ xs.splitOnPPrepend p acc) :
    ∀ x ∈ part, p x = false := by
  induction xs generalizing acc with
  | nil =>
    obtain rfl : part = acc.reverse := by simpa using h
    simpa using hacc
  | cons a rest ih =>
    by_cases ha : p a = true
    · rw [List.splitOnPPrepend_cons_pos ha] at h
      rcases List.mem_cons.mp h with rfl | h
      · simpa using hacc
      · exact ih (fun x hx => absurd hx List.not_mem_nil) h
    · rw [List.splitOnPPrepend_cons_neg (by simpa using ha)] at h
      refine ih (fun x hx => ?_) h
      rcases List.mem_cons.mp hx with rfl | hx
      · simpa using ha
      · exact hacc x hx

variable {text component linuxPath : Text}

theorem of_mem_guestComponents {part : Text} (h : part ∈ guestComponents text) :
    part ≠ [] ∧ '/' ∉ part := by
  obtain ⟨hmem, hne⟩ := List.mem_filter.mp h
  refine ⟨by simpa using hne, fun hslash => ?_⟩
  have hfalse :=
    of_mem_splitOnPPrepend (fun x hx => absurd hx List.not_mem_nil) hmem '/' hslash
  simp at hfalse

/-- A text that the host reads as one ordinary name. -/
structure HostName (text : Text) : Prop where
  nonempty : text ≠ []
  plain : ∀ c ∈ text, isReserved c = false ∧ c ≠ '/'
  ending : text.getLast?.any isReservedAtEnd = false

variable {c : Char}

theorem isSeparator_of_reserved (h : isReserved c = false) (hslash : c ≠ '/') :
    isSeparator c = false := by
  have hback : c ≠ '\\' := by
    rintro rfl
    exact absurd h (by decide)
  simp [isSeparator, hback, hslash]

theorem HostName.parse (h : HostName text) : HostPath.parse text = ⟨[], false, [text]⟩ := by
  have hseparator : ∀ c ∈ text, isSeparator c = false := fun c hc =>
    isSeparator_of_reserved (h.plain c hc).1 (h.plain c hc).2
  have hinit : splitPrefix text = none := by
    unfold splitPrefix
    split
    · next a b rest =>
      have hcolon : b ≠ ':' := by
        rintro rfl
        exact absurd (h.plain ':' (by simp)).1 (by decide)
      have ha := hseparator a (by simp)
      simp [hcolon, ha]
    · rfl
  have hrooted : startsRooted text = false := by
    cases htext : text with
    | nil => rfl
    | cons a rest => simpa [startsRooted] using hseparator a (by simp [htext])
  have hdot : text ≠ ['.'] := by
    rintro rfl
    exact absurd h.ending (by decide)
  have hcomponents : hostComponents text = [text] := by
    rw [hostComponents, List.splitOnP_eq_singleton hseparator]
    simp [h.nonempty, hdot]
  rw [HostPath.parse, hinit, hrooted, hcomponents]

theorem HostName.push (h : HostName text) (path : HostPath) :
    path.push text = { path with components := path.components ++ [text] } := by
  rw [HostPath.push, h.parse]
  rfl

/-! ## Escaping -/

theorem lt_of_escaped (h : isReserved c = true ∨ isReservedAtEnd c = true) : c.toNat < 0x80 := by
  rcases h with h | h
  · simp only [isReserved, Bool.or_eq_true, List.contains_eq_mem, decide_eq_true_eq,
      List.mem_cons, List.not_mem_nil, or_false] at h
    rcases h with (rfl | rfl | rfl | rfl | rfl | rfl | rfl | rfl) | h
    all_goals first | decide | omega
  · simp only [isReservedAtEnd, Bool.or_eq_true, decide_eq_true_eq] at h
    rcases h with rfl | rfl <;> decide

theorem escapeChar_toNat (h : c.toNat < 0x80) : (escapeChar c).toNat = ESCAPE_BASE + c.toNat := by
  have hvalid : (ESCAPE_BASE + c.toNat).isValidChar := by
    right
    simp only [ESCAPE_BASE]
    omega
  rw [escapeChar, if_pos hvalid, Char.ofNat, dif_pos hvalid]
  rfl

theorem escapeChar_plain (h : c.toNat < 0x80) :
    isReserved (escapeChar c) = false ∧ escapeChar c ≠ '/' ∧
      isReservedAtEnd (escapeChar c) = false := by
  have hcode := escapeChar_toNat h
  have hne : ∀ d : Char, d.toNat < 0x80 → escapeChar c ≠ d := by
    rintro d hd rfl
    rw [hcode, ESCAPE_BASE] at hd
    omega
  refine ⟨?_, hne _ (by decide), ?_⟩
  · simp only [isReserved, Bool.or_eq_false_iff, List.contains_eq_mem, decide_eq_false_iff_not,
      List.mem_cons, List.not_mem_nil, or_false, not_or]
    refine ⟨⟨?_, ?_, ?_, ?_, ?_, ?_, ?_, ?_⟩, ?_⟩
    all_goals first | exact hne _ (by decide) | (rw [hcode, ESCAPE_BASE]; omega)
  · simp [isReservedAtEnd, hne '.' (by decide), hne ' ' (by decide)]

theorem escapeChars_ne_nil (h : text ≠ []) : escapeChars text ≠ [] := by
  cases text with
  | nil => exact absurd rfl h
  | cons c rest => simp [escapeChars]

theorem escapeChars_plain (h : '/' ∉ text) :
    (∀ c ∈ escapeChars text, isReserved c = false ∧ c ≠ '/') ∧
      (escapeChars text).getLast?.any isReservedAtEnd = false := by
  induction text with
  | nil => exact ⟨nofun, rfl⟩
  | cons c rest ih =>
    obtain ⟨hrest, hending⟩ := ih fun hmem => h (List.mem_cons_of_mem c hmem)
    have hslash : c ≠ '/' := by
      rintro rfl
      exact h List.mem_cons_self
    rw [escapeChars]
    by_cases hescaped : (isReserved c || rest.isEmpty && isReservedAtEnd c) = true
    · rw [if_pos hescaped]
      have hlt : c.toNat < 0x80 := by
        simp only [Bool.or_eq_true, Bool.and_eq_true] at hescaped
        exact lt_of_escaped (hescaped.imp_right And.right)
      obtain ⟨hreserved, hne, hend⟩ := escapeChar_plain hlt
      refine ⟨fun d hd => ?_, ?_⟩
      · rcases List.mem_cons.mp hd with rfl | hd
        · exact ⟨hreserved, hne⟩
        · exact hrest d hd
      · cases rest with
        | nil => simpa [escapeChars] using hend
        | cons d rest => simpa [escapeChars] using hending
    · rw [if_neg hescaped]
      simp only [Bool.or_eq_true, Bool.and_eq_true, not_or, not_and, Bool.not_eq_true] at hescaped
      refine ⟨fun d hd => ?_, ?_⟩
      · rcases List.mem_cons.mp hd with rfl | hd
        · exact ⟨hescaped.1, hslash⟩
        · exact hrest d hd
      · cases rest with
        | nil => simpa [escapeChars] using hescaped.2 rfl
        | cons d rest => simpa [escapeChars] using hending

theorem escapeComponent_hostName (hne : component ≠ [])
    (hslash : '/' ∉ component) : HostName (escapeComponent component) := by
  unfold escapeComponent
  split
  · next hplain =>
    simp only [Bool.and_eq_true, Bool.not_eq_true', List.any_eq_false, Bool.not_eq_true] at hplain
    refine ⟨hne, fun c hc => ⟨hplain.2 c hc, ?_⟩, hplain.1⟩
    rintro rfl
    exact hslash hc
  · obtain ⟨hplain, hending⟩ := escapeChars_plain hslash
    exact ⟨escapeChars_ne_nil hne, hplain, hending⟩

/-! ## The resolution -/

/-- A component of the guest path, or of the target of a link. -/
def Component (host : Host) (linuxPath component : Text) : Prop :=
  component ∈ guestComponents linuxPath ∨ ∃ (path : HostPath) (target : Text),
    host.link path = .ok (some target) ∧ component ∈ guestComponents target

theorem Component.plain (h : Component host linuxPath component) :
    component ≠ [] ∧ '/' ∉ component := by
  rcases h with h | ⟨path, target, -, h⟩
  · exact of_mem_guestComponents h
  · exact of_mem_guestComponents h

/-- The names below the root that lead to a place. -/
structure Below (host : Host) (root : HostPath) (linuxPath : Text) (names : List Text)
    (place : Place) : Prop where
  resolved : place.resolved =
    { root with components := root.components ++ names.map escapeComponent }
  depth : place.depth = names.length
  guest : ∀ name ∈ names, Component host linuxPath name ∧ name ≠ ['.'] ∧ name ≠ ['.', '.']

theorem Below.atRoot (host : Host) (root : HostPath) (linuxPath : Text) :
    Below host root linuxPath [] ⟨root, 0⟩ := ⟨by simp, rfl, nofun⟩

variable {names : List Text} {place : Place}

theorem Below.pop (h : Below host root linuxPath names place) (hne : names ≠ []) :
    Below host root linuxPath names.dropLast ⟨place.resolved.pop, place.depth - 1⟩ := by
  refine ⟨?_, ?_, fun name hname => h.guest name (List.dropLast_sublist names |>.mem hname)⟩
  · rw [h.resolved, HostPath.pop, List.dropLast_append_of_ne_nil (by simpa using hne),
      ← List.map_dropLast]
  · rw [List.length_dropLast, h.depth]

theorem Below.pushComponent (h : Below host root linuxPath names place)
    (hcomponent : Component host linuxPath component) :
    ∃ names : List Text, Below host root linuxPath names (place.pushComponent component) := by
  unfold Place.pushComponent
  split
  · exact ⟨names, h⟩
  · next hdot =>
    split
    · split
      · next hdepth =>
        refine ⟨_, h.pop ?_⟩
        rintro rfl
        exact hdepth h.depth
      · exact ⟨names, h⟩
    · next hdots =>
      obtain ⟨hne, hslash⟩ := hcomponent.plain
      refine ⟨names ++ [component], ?_, ?_, fun name hname => ?_⟩
      · rw [(escapeComponent_hostName hne hslash).push, h.resolved]
        simp
      · simp [h.depth]
      · rcases List.mem_append.mp hname with hname | hname
        · exact h.guest name hname
        · obtain rfl := List.mem_singleton.mp hname
          exact ⟨hcomponent, hdot, hdots⟩

theorem Below.follow {target : Text} (hroot : ∀ target : Text, host.link root ≠ .ok (some target))
    (h : Below host root linuxPath names place)
    (hlink : host.link place.resolved = .ok (some target)) :
    (∃ names : List Text, Below host root linuxPath names (place.follow root false target).1) ∧
      ∀ name ∈ (place.follow root false target).2, Component host linuxPath name := by
  have hnames : names ≠ [] := by
    rintro rfl
    have hresolved : place.resolved = root := by rw [h.resolved]; simp
    exact hroot target (hresolved ▸ hlink)
  have hcomponents : ∀ name ∈ guestComponents target, Component host linuxPath name :=
    fun name hname => .inr ⟨_, target, hlink, hname⟩
  unfold Place.follow
  split
  · exact ⟨⟨[], .atRoot host root linuxPath⟩, hcomponents⟩
  · exact ⟨⟨_, h.pop hnames⟩, hcomponents⟩

theorem link_of_symlinkComponent {path : HostPath} {mustBeDirectory : Bool} {target : Text}
    (h : host.symlinkComponent path mustBeDirectory = .ok (some target)) :
    host.link path = .ok (some target) := by
  unfold Host.symlinkComponent at h
  split at h
  · cases h
  · next hlink => exact hlink.trans h
  · split at h <;> cases h

/-- The loop stays below the root and follows at most 40 links. -/
theorem resolveLoop_below {followFinal : Bool} {followed : Nat} {pending : List Text}
    (hroot : ∀ target : Text, host.link root ≠ .ok (some target))
    (hplace : ∃ names : List Text, Below host root linuxPath names place)
    (hpending : ∀ name ∈ pending, Component host linuxPath name)
    (hfollowed : followed ≤ MAX_SYMLINKS) {place' : Place} {followed' : Nat}
    (h : resolveLoop host root false followFinal followed pending place = .ok (place', followed')) :
    (∃ names : List Text, Below host root linuxPath names place') ∧ followed' ≤ MAX_SYMLINKS := by
  fun_induction resolveLoop host root false followFinal followed pending place with
  | case1 followed place =>
    cases h
    exact ⟨hplace, hfollowed⟩
  | case2 followed place component pending next hfinal ih =>
    obtain ⟨names, hnames⟩ := hplace
    exact ih (hnames.pushComponent (hpending _ List.mem_cons_self))
      (fun name hname => hpending name (List.mem_cons_of_mem _ hname)) hfollowed h
  | case3 => cases h
  | case4 followed place component pending next hfinal hlink ih =>
    obtain ⟨names, hnames⟩ := hplace
    exact ih (hnames.pushComponent (hpending _ List.mem_cons_self))
      (fun name hname => hpending name (List.mem_cons_of_mem _ hname)) hfollowed h
  | case5 => cases h
  | case6 => cases h
  | case7 followed place component pending next hfinal target hlink hmany hnul place₂ components
      hfollow ih =>
      obtain ⟨names, hnames⟩ := hplace
      obtain ⟨names, hnames⟩ := hnames.pushComponent (hpending _ List.mem_cons_self)
      obtain ⟨hbelow, htarget⟩ := hnames.follow hroot (link_of_symlinkComponent hlink)
      rw [hfollow] at hbelow htarget
      refine ih hbelow (fun name hname => ?_) (by omega) h
      rcases List.mem_append.mp hname with hname | hname
      · exact htarget name hname
      · exact hpending name (List.mem_cons_of_mem _ hname)

/-- In a confined process the resolution of every path ends, with an error or with the
system root and `depth` escaped guest components below it, each one component of the
host's, after at most 40 links. -/
theorem resolve_confined (host : Host) (root : HostPath)
    (hroot : ∀ target : Text, host.link root ≠ .ok (some target)) (linuxPath : Text)
    (followFinal : Bool) :
    (∃ e : PathError, resolveLinuxPathComponents host true root linuxPath followFinal = .error e) ∨
    ∃ (place : Place) (followed : Nat) (names : List Text),
      resolveLinuxPathComponents host true root linuxPath followFinal =
        .ok (place, followed) ∧ followed ≤ MAX_SYMLINKS ∧ place.depth = names.length ∧
      place.resolved = { root with components := root.components ++ names.map escapeComponent } ∧
      ∀ name ∈ names, Component host linuxPath name ∧ name ≠ ['.'] ∧ name ≠ ['.', '.'] ∧
        HostName (escapeComponent name) := by
  cases hresult : resolveLinuxPathComponents host true root linuxPath followFinal with
  | error e => exact .inl ⟨e, rfl⟩
  | ok result =>
    obtain ⟨place, followed⟩ := result
    unfold resolveLinuxPathComponents at hresult
    split at hresult
    · cases hresult
    have hselect : selectRoot root (!true) (isAbsolute linuxPath)
        (guestComponents linuxPath) = (root, guestComponents linuxPath) := by
      simp [selectRoot]
    rw [hselect] at hresult
    obtain ⟨⟨names, hnames⟩, hfollowed⟩ := resolveLoop_below hroot
      ⟨[], .atRoot host root linuxPath⟩ (fun name hname => .inl hname) (Nat.zero_le _) hresult
    refine .inr ⟨place, followed, names, rfl, hfollowed, hnames.depth, hnames.resolved,
      fun name hname => ?_⟩
    obtain ⟨hcomponent, hdot, hdots⟩ := hnames.guest name hname
    obtain ⟨hne, hslash⟩ := hcomponent.plain
    exact ⟨hcomponent, hdot, hdots, escapeComponent_hostName hne hslash⟩

def hostRoot : HostPath := ⟨['E', ':'], true, [['h']]⟩

/-- A host on which `/a` is a link that climbs. -/
def climbingHost : Host where
  link path :=
    if path.components = [['h'], ['a']] then .ok (some ['.', '.', '/', '.', '.', '/', 'b'])
    else .ok none
  nondirectory _ := false

theorem hostRoot_no_link (target : Text) : climbingHost.link hostRoot ≠ .ok (some target) := by
  simp [climbingHost, hostRoot]

theorem resolve_confined_climbing : (∃ e : PathError,
      resolveLinuxPathComponents climbingHost true hostRoot ['/', 'a'] true = .error e) ∨
    ∃ (place : Place) (followed : Nat),
      resolveLinuxPathComponents climbingHost true hostRoot ['/', 'a'] true =
        .ok (place, followed) ∧
      followed ≤ MAX_SYMLINKS ∧ hostRoot.components <+: place.resolved.components := by
  rcases resolve_confined climbingHost hostRoot hostRoot_no_link ['/', 'a'] true with
    hrefused | ⟨place, followed, names, hok, hfollowed, -, hresolved, -⟩
  · exact .inl hrefused
  · exact .inr ⟨place, followed, hok, hfollowed, by rw [hresolved]; exact List.prefix_append _ _⟩

end Kinakaze.Path
