import Kinakaze.Overlay.Walk
import Mathlib.Data.List.Find

/-!
# Listing a directory of an overlay

A name is listed once, for the highest layer that has it.  What is listed is what the lookup finds,
where no stored name stands for another component than the one it is listed as.
-/

namespace Kinakaze.Overlay

open Path

variable {ns : XattrNamespace}

/-- A component is stored under the name exactly when it is the one that the name is listed as. -/
def Faithful (stored : Text) : Prop :=
  ∀ name, (validateComponent name = .ok () ∧ escapeComponent name = stored) ↔
    name = unescapePath stored

def Node.Faithful (n : Node) : Prop :=
  ∀ b ∈ n.entries, ∀ stored ∈ b.object.entries.names, Overlay.Faithful stored

theorem Faithful.hostName {stored : Text} (h : Faithful stored) : HostName stored := by
  obtain ⟨hvalid, hstored⟩ := (h (unescapePath stored)).mpr rfl
  rw [← hstored]
  exact validate_hostName hvalid

/-! ## The entries in the order of the listing -/

def listed (sources : List Source) : List (Source × Text) :=
  sources.flatMap fun s => s.1.entries.names.map fun stored => (s, stored)

theorem mem_names {forest : Forest} {stored : Text} :
    stored ∈ forest.names ↔ (forest.lookup stored).isSome = true := by
  match forest with
  | .nil => simp [Forest.names, Forest.lookup]
  | .cons name object rest =>
    rw [Forest.names, Forest.lookup, List.mem_cons]
    split
    · next heq => simp [heq]
    · next hne =>
      rw [mem_names]
      exact or_iff_right fun heq => hne heq.symm

theorem find_listed (sources : List Source) (stored : Text) :
    (listed sources).find? (fun x => decide (x.2 = stored)) =
      (sources.find? fun s => (s.1.entries.lookup stored).isSome).map fun s => (s, stored) := by
  induction sources with
  | nil => rfl
  | cons source lower ih =>
    rw [listed, List.flatMap_cons, List.find?_append]
    rw [listed] at ih
    rw [ih, List.find?_cons]
    cases hlookup : (source.1.entries.lookup stored).isSome with
    | true =>
      have hmem : stored ∈ source.1.entries.names := mem_names.mpr hlookup
      have hfind : (source.1.entries.names.map fun stored => (source, stored)).find?
          (fun x => decide (x.2 = stored)) = some (source, stored) := by
        rw [List.find?_map]
        have hfirst : source.1.entries.names.find? (fun name => decide (name = stored)) =
            some stored := by
          cases hfound : source.1.entries.names.find? (fun name => decide (name = stored)) with
          | none => exact absurd (List.find?_eq_none.mp hfound stored hmem) (by simp)
          | some name =>
            have hp := List.find?_some (p := fun name => decide (name = stored)) hfound
            rw [of_decide_eq_true hp]
        exact congrArg (Option.map _) hfirst
      rw [hfind]
      rfl
    | false =>
      have hfind : (source.1.entries.names.map fun stored => (source, stored)).find?
          (fun x => decide (x.2 = stored)) = none := by
        rw [List.find?_eq_none]
        intro x hx hstored
        obtain ⟨name, hname, rfl⟩ := List.mem_map.mp hx
        have heq : name = stored := of_decide_eq_true hstored
        rw [heq, mem_names, hlookup] at hname
        cases hname
      rw [hfind]
      rfl

theorem merged_head (sources : List Source) (stored : Text) : (merged ns stored sources).head? =
      (sources.find? fun s => (s.1.entries.lookup stored).isSome).bind fun s =>
        ((s.1.entries.lookup stored).filter fun entry => !entry.isWhiteout ns).map fun entry =>
          (entry, s.2) := by
  induction sources with
  | nil => rfl
  | cons source lower ih =>
    rw [merged, List.find?_cons]
    cases hlookup : source.1.entries.lookup stored with
    | none => exact ih
    | some entry =>
      cases hwhiteout : entry.isWhiteout ns with
      | true => simp [Option.filter, hlookup, hwhiteout]
      | false =>
        simp only [Bool.false_eq_true, if_false, Option.isSome_some, Option.bind_some,
          hlookup, Option.filter, hwhiteout, Bool.not_false, if_true, Option.map_some]
        split <;> rfl

/-! ## The loops -/

/-- The names are those of the entries seen, and each name is listed for its first entry. -/
structure Listed (ns : XattrNamespace) (entries : List (Source × Text)) (seen : List Text)
    (items : List DirectoryItem) : Prop where
  names : ∀ name, name ∈ seen ↔ ∃ x ∈ entries, unescapePath x.2 = name
  shown : ∀ name mode, (⟨name, mode⟩ : DirectoryItem) ∈ items ↔
    ∃ x object, entries.find? (fun x => decide (unescapePath x.2 = name)) = some x ∧
      x.1.1.entries.lookup x.2 = some object ∧ object.isWhiteout ns = false ∧
      object.stat.st_mode = mode
  nodup : (items.map DirectoryItem.name).Nodup

theorem Listed.start : Listed ns [] [] [] where
  names := by simp
  shown := by simp
  nodup := .nil

variable {entries : List (Source × Text)} {seen : List Text} {items : List DirectoryItem}

theorem Listed.skip (h : Listed ns entries seen items) {x : Source × Text}
    (hseen : unescapePath x.2 ∈ seen) : Listed ns (entries ++ [x]) seen items := by
  refine ⟨fun name => ?_, fun name mode => ?_, h.nodup⟩
  · rw [h.names]
    constructor
    · rintro ⟨y, hy, hname⟩
      exact ⟨y, List.mem_append_left _ hy, hname⟩
    · rintro ⟨y, hy, hname⟩
      rcases List.mem_append.mp hy with hy | hy
      · exact ⟨y, hy, hname⟩
      · rw [← hname, List.mem_singleton.mp hy]
        exact (h.names _).mp hseen
  · rw [h.shown, List.find?_append]
    suffices hfind : (entries.find? fun x => decide (unescapePath x.2 = name)).or
        ([x].find? fun x => decide (unescapePath x.2 = name)) =
          entries.find? fun x => decide (unescapePath x.2 = name) by rw [hfind]
    cases hfound : entries.find? fun x => decide (unescapePath x.2 = name) with
    | some y => rfl
    | none =>
      rw [Option.none_or]
      by_contra hne
      obtain ⟨y, hy⟩ := Option.ne_none_iff_exists'.mp hne
      have hyx := List.mem_singleton.mp (List.mem_of_find?_eq_some hy)
      have hname : unescapePath y.2 = name := of_decide_eq_true
        (List.find?_some (p := fun x : Source × Text => decide (unescapePath x.2 = name)) hy)
      rw [hyx] at hname
      obtain ⟨z, hz, hzname⟩ := (h.names _).mp hseen
      exact List.find?_eq_none.mp hfound z hz (decide_eq_true (hzname.trans hname))

theorem Listed.add (h : Listed ns entries seen items) {x : Source × Text}
    (hnew : unescapePath x.2 ∉ seen) {object : Tree}
    (hobject : x.1.1.entries.lookup x.2 = some object) :
    Listed ns (entries ++ [x]) (unescapePath x.2 :: seen) (if object.isWhiteout ns then items
        else items ++ [⟨unescapePath x.2, object.stat.st_mode⟩]) := by
  have hnone : entries.find? (fun y => decide (unescapePath y.2 = unescapePath x.2)) = none := by
    rw [List.find?_eq_none]
    intro y hy hname
    exact hnew ((h.names _).mpr ⟨y, hy, of_decide_eq_true hname⟩)
  have hfind : ∀ name, (entries ++ [x]).find? (fun y => decide (unescapePath y.2 = name)) =
      if unescapePath x.2 = name then some x
      else entries.find? fun y => decide (unescapePath y.2 = name) := by
    intro name
    rw [List.find?_append]
    split
    · next heq =>
      subst heq
      rw [hnone, Option.none_or]
      simp
    · next hne => simp [hne]
  have hunlisted : ∀ mode, (⟨unescapePath x.2, mode⟩ : DirectoryItem) ∉ items := by
    intro mode hmem
    obtain ⟨y, entry, hy, -⟩ := (h.shown _ _).mp hmem
    rw [hnone] at hy
    cases hy
  refine ⟨fun name => ?_, fun name mode => ?_, ?_⟩
  · rw [List.mem_cons, h.names]
    constructor
    · rintro (rfl | ⟨y, hy, hname⟩)
      · exact ⟨x, by simp, rfl⟩
      · exact ⟨y, List.mem_append_left _ hy, hname⟩
    · rintro ⟨y, hy, hname⟩
      rcases List.mem_append.mp hy with hy | hy
      · exact .inr ⟨y, hy, hname⟩
      · rw [List.mem_singleton.mp hy] at hname
        exact .inl hname.symm
  · rw [hfind]
    by_cases hname : unescapePath x.2 = name
    · subst hname
      rw [if_pos rfl]
      cases hwhiteout : object.isWhiteout ns with
      | true =>
        rw [if_pos rfl]
        refine iff_of_false (hunlisted mode) ?_
        rintro ⟨y, entry, hy, hentry, hnot, -⟩
        cases hy
        rw [hobject] at hentry
        cases hentry
        rw [hwhiteout] at hnot
        cases hnot
      | false =>
        rw [if_neg (by decide), List.mem_append]
        constructor
        · rintro (hmem | hmem)
          · exact absurd hmem (hunlisted mode)
          · cases List.mem_singleton.mp hmem
            exact ⟨x, object, rfl, hobject, hwhiteout, rfl⟩
        · rintro ⟨y, entry, hy, hentry, -, rfl⟩
          cases hy
          rw [hobject] at hentry
          cases hentry
          exact .inr (List.mem_singleton.mpr rfl)
    · rw [if_neg hname, ← h.shown]
      split
      · exact Iff.rfl
      rw [List.mem_append]
      refine or_iff_left fun hmem => hname ?_
      cases List.mem_singleton.mp hmem
      rfl
  · split
    · exact h.nodup
    · rw [List.map_append, List.nodup_append]
      refine ⟨h.nodup, by simp, fun a ha b hb heq => ?_⟩
      obtain ⟨item, hitem, rfl⟩ := List.mem_map.mp ha
      rw [List.map_singleton, List.mem_singleton] at hb
      have hname : unescapePath x.2 = item.name := by rw [heq, hb]
      apply hunlisted item.mode
      rw [hname]
      exact hitem

theorem snapshotLoop_listed {s : Source} (hplain : s.1.Plain ns) (names : List Text)
    (hnames : ∀ stored ∈ names, HostName stored ∧ stored ∈ s.1.entries.names)
    (h : Listed ns entries seen items) :
    ∃ seen' items', snapshotLoop ns (backing ns s) names (seen, items) = .ok (seen', items') ∧
      Listed ns (entries ++ names.map fun stored => (s, stored)) seen' items' := by
  induction names generalizing entries seen items with
  | nil => exact ⟨seen, items, rfl, by simpa using h⟩
  | cons stored names ih =>
    obtain ⟨hname, hmem⟩ := hnames stored List.mem_cons_self
    have hrest := fun name hin => hnames name (List.mem_cons_of_mem stored hin)
    have happend : entries ++ (stored :: names).map (fun stored => (s, stored)) =
        entries ++ [(s, stored)] ++ names.map fun stored => (s, stored) := by
      simp
    rw [happend, snapshotLoop]
    cases hseen : seen.contains (unescapePath stored) with
    | true =>
      rw [if_pos rfl]
      exact ih hrest (h.skip (x := (s, stored)) (List.contains_iff_mem.mp hseen))
    | false =>
      obtain ⟨object, hobject⟩ := Option.isSome_iff_exists.mp (mem_names.mp hmem)
      have hnew : unescapePath stored ∉ seen := by
        intro hin
        rw [List.contains_iff_mem.mpr hin] at hseen
        cases hseen
      rw [if_neg (by decide), entry_plain hplain hname, hobject]
      exact ih hrest (h.add (x := (s, stored)) hnew hobject)

theorem snapshotLoops_listed (sources : List Source) (hplain : ∀ s ∈ sources, s.1.Plain ns)
    (hnames : ∀ s ∈ sources, ∀ stored ∈ s.1.entries.names, HostName stored)
    (h : Listed ns entries seen items) :
    ∃ seen' items', (sources.map (backing ns)).foldlM (fun state parent =>
        snapshotLoop ns parent parent.object.entries.names state) (seen, items) =
          .ok (seen', items') ∧ Listed ns (entries ++ listed sources) seen' items' := by
  induction sources generalizing entries seen items with
  | nil => exact ⟨seen, items, rfl, by simpa [listed] using h⟩
  | cons source lower ih =>
    obtain ⟨seen', items', hloop, hlisted⟩ := snapshotLoop_listed
      (hplain source List.mem_cons_self) source.1.entries.names
      (fun stored hin => ⟨hnames source List.mem_cons_self stored hin, hin⟩) h
    have happend : entries ++ listed (source :: lower) =
        entries ++ (source.1.entries.names.map fun stored => (source, stored)) ++ listed lower := by
      simp [listed]
    rw [List.map_cons, List.foldlM_cons, happend]
    change ∃ seen' items', (snapshotLoop ns (backing ns source) source.1.entries.names
      (seen, items) >>= _) = _ ∧ _
    rw [hloop]
    exact ih (fun s hs => hplain s (List.mem_cons_of_mem _ hs))
      (fun s hs => hnames s (List.mem_cons_of_mem _ hs)) hlisted

/-! ## The listing of a directory -/

variable {rest : List Source} {first : Source}

/-- The listing has each name once, with the mode that the lookup finds. -/
theorem snapshot_listed {context : Option LookupContext}
    (hcontext : ∀ c, context = some c → c.Featureless) (hmerge : Merge ns first rest)
    (hdirectory : first.1.isDirectory = true) (hfaithful : (nodeOf ns context first rest).Faithful)
    :
    ∃ items, (nodeOf ns context first rest).directorySnapshot = .ok items ∧
      (items.map DirectoryItem.name).Nodup ∧
      ∀ name mode, (⟨name, mode⟩ : DirectoryItem) ∈ items ↔
        ∃ n, (nodeOf ns context first rest).child name = .ok n ∧
          n.first.object.stat.st_mode = mode := by
  have hnames : ∀ s ∈ first :: rest, ∀ stored ∈ s.1.entries.names, Faithful stored := by
    intro s hs stored hstored
    exact hfaithful (backing ns s) (List.mem_map_of_mem hs) stored hstored
  obtain ⟨seen, items, hloops, hlisted⟩ := snapshotLoops_listed (first :: rest) hmerge.plain
    (fun s hs stored hstored => (hnames s hs stored hstored).hostName) (Listed.start : Listed ns [] [] [])
  refine ⟨items, ?_, hlisted.nodup, fun name mode => ?_⟩
  · have hnode : (nodeOf ns context first rest).isDirectory = true := hdirectory
    have hentries : (nodeOf ns context first rest).entries = (first :: rest).map (backing ns) := rfl
    have hns : (nodeOf ns context first rest).ns = ns := rfl
    unfold Node.directorySnapshot
    rw [hnode, hentries, hns, hloops]
    rfl
  · rw [List.nil_append] at hlisted
    rw [hlisted.shown]
    -- An entry is listed under the name if the name is valid and is what it stands for.
    have hlist : ∀ x ∈ listed (first :: rest), unescapePath x.2 = name ↔
        (validateComponent name = .ok () ∧ escapeComponent name = x.2) := by
      intro x hx
      obtain ⟨s, hs, hin⟩ := List.mem_flatMap.mp hx
      obtain ⟨stored, hstored, rfl⟩ := List.mem_map.mp hin
      exact ⟨fun heq => (hnames s hs stored hstored name).mpr heq.symm,
        fun hboth => ((hnames s hs stored hstored name).mp hboth).symm⟩
    by_cases hvalid : validateComponent name = .ok ()
    · have hfind : (listed (first :: rest)).find? (fun x => decide (unescapePath x.2 = name)) =
          (listed (first :: rest)).find? fun x => decide (x.2 = escapeComponent name) := by
        refine List.find?_congr fun x hx => ?_
        refine decide_eq_decide.mpr ((hlist x hx).trans ?_)
        exact ⟨fun hboth => hboth.2.symm, fun heq => ⟨hvalid, heq.symm⟩⟩
      have hhead : (merged ns (escapeComponent name) (first :: rest)).head? = _ :=
        merged_head (first :: rest) (escapeComponent name)
      rw [child_nodeOf hcontext hmerge.plain hvalid, if_pos hdirectory, hfind, find_listed]
      cases hfound : (first :: rest).find? fun s =>
          (s.1.entries.lookup (escapeComponent name)).isSome with
      | none =>
        rw [hfound] at hhead
        rw [List.head?_eq_none_iff.mp hhead]
        constructor
        · rintro ⟨x, object, hx, -⟩
          cases hx
        · rintro ⟨n, hn, -⟩
          cases hn
      | some s =>
        obtain ⟨entry, hentry⟩ := Option.isSome_iff_exists.mp (List.find?_some
          (p := fun s : Source => (s.1.entries.lookup (escapeComponent name)).isSome) hfound)
        rw [hfound, Option.bind_some, hentry] at hhead
        cases hwhiteout : entry.isWhiteout ns with
        | true =>
          simp only [Option.filter, hwhiteout, Bool.not_true, Bool.false_eq_true, if_false,
            Option.map_none] at hhead
          rw [List.head?_eq_none_iff.mp hhead]
          constructor
          · rintro ⟨x, object, hx, hobject, hnot, -⟩
            cases hx
            rw [hentry] at hobject
            cases hobject
            rw [hwhiteout] at hnot
            cases hnot
          · rintro ⟨n, hn, -⟩
            cases hn
        | false =>
          simp only [Option.filter, hwhiteout, Bool.not_false, if_true, Option.map_some] at hhead
          obtain ⟨below, hmerged⟩ := List.head?_eq_some_iff.mp hhead
          rw [hmerged]
          constructor
          · rintro ⟨x, object, hx, hobject, -, rfl⟩
            cases hx
            rw [hentry] at hobject
            cases hobject
            exact ⟨_, rfl, rfl⟩
          · rintro ⟨n, hn, rfl⟩
            cases hn
            exact ⟨_, entry, rfl, hentry, hwhiteout, rfl⟩
    · refine iff_of_false ?_ ?_
      · rintro ⟨x, object, hx, -⟩
        have hname := List.find?_some (p := fun x : Source × Text =>
          decide (unescapePath x.2 = name)) hx
        exact hvalid ((hlist x (List.mem_of_find?_eq_some hx)).mp (of_decide_eq_true hname)).1
      · rintro ⟨n, hn, -⟩
        exact child_invalid hvalid hn

/-! ## The law -/

theorem featureChild_eq {context : LookupContext} (hcontext : context.Featureless)
    (hmerge : Merge ns first rest) (name : Text) :
    (nodeOf ns (some context) first rest).featureChild context name 0 =
      ((nodeOf ns none first rest).child name).map fun n => { n with context := some context } := by
  cases hname : validateComponent name with
  | error e =>
    have hfeature : (nodeOf ns (some context) first rest).featureChild context name 0 =
        .error e := by
      unfold Node.featureChild
      rw [hname]
      rfl
    have hchild : (nodeOf ns none first rest).child name = .error e := by
      change (validateComponent name >>= _) = _
      rw [hname]
      rfl
    rw [hfeature, hchild]
    rfl
  | ok u =>
    have hnone : ∀ c : LookupContext, none = some c → c.Featureless := nofun
    rw [featureChild_nodeOf hcontext hmerge.plain hname, child_nodeOf hnone hmerge.plain hname]
    split
    · cases merged ns (escapeComponent name) (first :: rest) <;> rfl
    · rfl

/-- What holds of a node that a lookup reaches. -/
structure Lawful (n : Node) : Prop where
  layers : (n.entries.map Backing.layer).Pairwise (· < ·)
  directories : n.isDirectory = true → ∀ b ∈ n.entries, b.isDirectory = true
  listing : n.isDirectory = true → n.Faithful → ∃ items, n.directorySnapshot = .ok items ∧
    (items.map DirectoryItem.name).Nodup ∧
    ∀ name mode, (⟨name, mode⟩ : DirectoryItem) ∈ items ↔
      ∃ m, n.child name = .ok m ∧ m.first.object.stat.st_mode = mode
  features : ∀ context : LookupContext, context.Featureless → ∀ name,
    ({ n with context := some context } : Node).featureChild context name 0 =
      (n.child name).map fun m => { m with context := some context }

theorem Merge.lawful (h : Merge ns first rest) : Lawful (nodeOf ns none first rest) := by
  have hnone : ∀ c : LookupContext, none = some c → c.Featureless := nofun
  have hentries : (nodeOf ns none first rest).entries = (first :: rest).map (backing ns) := rfl
  refine ⟨?_, fun hdirectory b hb => ?_, fun hdirectory hfaithful =>
    snapshot_listed hnone h hdirectory hfaithful, fun context hcontext name =>
    featureChild_eq hcontext h name⟩
  · rw [hentries, List.map_map]
    exact h.layers
  · rw [hentries] at hb
    obtain ⟨s, hs, rfl⟩ := List.mem_map.mp hb
    rcases List.mem_cons.mp hs with rfl | hs
    · exact hdirectory
    · exact h.directories hdirectory s hs

/-- A directory with one file, under a stored name. -/
def oneFile (stored : Text) : Tree :=
  .node ⟨1, 0o040755, 0, 0⟩ [] (.cons stored (.node ⟨2, 0o100644, 0, 5⟩ [] .nil) .nil)

def foundIn (stored name : Text) : Except Int Nat := do
  let root ← Node.root .trusted [oneFile stored]
  let n ← root.child name
  .ok n.first.object.stat.st_ino

def listedIn (stored : Text) : Except Int (List DirectoryItem) :=
  Node.root .trusted [oneFile stored] >>= Node.directorySnapshot

end Kinakaze.Overlay
