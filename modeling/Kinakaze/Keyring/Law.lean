import Kinakaze.Keyring.Links
import Kinakaze.Keyring.Quota
import Kinakaze.Library.StatefulCall
import Kinakaze.Library.Run

/-!
# What the keyrings keep

The links make no cycle and the quotas hold as long as no call meets one of two gaps: the
search before a link, which passes over keys that have expired and stops after 1024 keys, may
miss a path, and new data and new owners are not charged.
-/

namespace Kinakaze.Keyring

open Library Relation

structure Lawful (s : State) : Prop where
  linked : Linked s
  inQuota : InQuota s

/-! ## The calls that are allowed -/

/-- The owner's quota has room for the data in place of what the key has. -/
def FitsData (s : State) (id : Nat) (data : List (BitVec 8)) : Prop :=
  ∀ k, s.keys[id]? = some k → s.sum k.uid Key.payload + data.length ≤ maxBytes k.uid + k.payload

/-- The new owner's quota has room for the key. -/
def FitsOwner (s : State) (id : Nat) (uid : BitVec 32) : Prop :=
  ∀ k, s.keys[id]? = some k → uid ≠ -1 → uid ≠ k.uid →
    s.owned uid + 1 ≤ maxKeys uid ∧ s.sum uid Key.payload + k.payload ≤ maxBytes uid

/-- No path from the key to the keyring is missed, where both may be linked. -/
def SeesPath (c : Caller) (s : State) (task : Task) (id ring : Nat) : Prop :=
  s.permission c task id 16 = .ok () → s.permission c task ring 4 = .ok () →
    ¬ Misses c.now s id ring

/-- The key that `search` finds, before it links it. -/
def State.found (c : Caller) (s : State) (task : Task) (ring : Nat) (kind name : String) :
    Except Int Nat :=
  s.searchLoop c task kind name (2 + total s.keys fun k => k.links.length) [ring] []

/-- What a call would link or charge is seen by the search, and within the quota. -/
def Allowed (s : State) (call : Call) : Prop :=
  let c := call.caller
  let task := call.task
  match call.op with
  | .join _ => True
  | .add kind name data ring => ∀ r k id, s.special c task ring false = .ok (r, s, task) →
      s.live c.now r = .ok k → k.links.find? (s.named kind name) = some id →
      s.permission c task id 4 = .ok () → data.length ≤ 32767 → FitsData s id data
  | .search ring kind name destination => ∀ r id d, s.special c task ring false = .ok (r, s, task) →
      s.found c task r kind name = .ok id →
      s.special c task destination false = .ok (d, s, task) → SeesPath c s task id d
  | .command id (.update data) => ∀ i, s.special c task id false = .ok (i, s, task) →
      s.permission c task i 4 = .ok () → data.length ≤ 32767 → FitsData s i data
  | .command id (.chown uid gid) => ∀ i, s.special c task id false = .ok (i, s, task) →
      s.permission c task i 32 = .ok () → (s.chown c i uid gid).isOk = true → FitsOwner s i uid
  | .command id (.link ring) => ∀ i r, s.special c task id false = .ok (i, s, task) →
      s.special c task ring false = .ok (r, s, task) → SeesPath c s task i r
  | .command _ _ => True

/-! ## Parts of a call -/

variable {id r : Nat} {s : State} {k : Key}

theorem live_ok {now : Nat} (h : s.live now id = .ok k) : s.keys[id]? = some k := by
  unfold State.live at h
  cases hk : s.keys[id]? with
  | none =>
    rw [hk] at h
    cases h
  | some k' =>
    rw [hk] at h
    dsimp only at h
    split at h
    · cases h
    split at h
    · cases h
    · cases h
      rfl

theorem map_ok {α β : Type} {x : Except Int α} {f : α → β} {b : β} (h : x.map f = .ok b) :
    ∃ a, x = .ok a ∧ f a = b := by
  match x, h with
  | .ok a, h => exact ⟨a, rfl, Except.ok.inj h⟩

variable {kind name : String} {data : List (BitVec 8)} {c : Caller} {s' : State}

theorem create_ok (h : s.create c kind name data = .ok (id, s')) :
    ∃ k : Key, id = s.next ∧ s' = { next := s.next + 1, keys := s.keys.insert s.next k } ∧
      k.links = [] ∧ k.kind = kind ∧ k.name = name ∧ s.owned k.uid < maxKeys k.uid ∧
      s.sum k.uid Key.charge + k.charge ≤ maxBytes k.uid := by
  unfold State.create at h
  split at h
  · cases h
  split at h
  · cases h
  split at h
  · cases h
  split at h
  · cases h
  · next hquota =>
    split at h
    · cases h
    · cases h
      simp only [Bool.or_eq_true, decide_eq_true_eq, not_or, Nat.not_le, Nat.not_lt,
        ge_iff_le, gt_iff_lt] at hquota
      refine ⟨_, rfl, rfl, rfl, rfl, rfl, hquota.1, ?_⟩
      have hbytes := hquota.2
      simp only [Key.charge]
      omega

theorem Lawful.create (h : Lawful s) (hok : s.create c kind name data = .ok (id, s')) :
    Lawful s' := by
  obtain ⟨k, -, rfl, hlinks, -, -, hkeys, hbytes⟩ := create_ok hok
  have hnone : s.keys[s.next]? = none := by
    cases hn : s.keys[s.next]? with
    | none => rfl
    | some k' => exact absurd (h.linked.fresh _ k' hn) (Nat.lt_irrefl _)
  exact ⟨h.linked.create hlinks, h.inQuota.create hnone hkeys hbytes⟩

variable {create : Bool} {task task' : Task}

theorem special_ok {id : Int} (h : s.special c task id create = .ok (r, s', task')) :
    (s' = s ∧ task' = task ∧ s.special c task id false = .ok (r, s, task)) ∨
      create = true ∧ ∃ name, s.create c "keyring" name [] = .ok (r, s') := by
  unfold State.special at h ⊢
  split at h
  · next hpos =>
    rw [if_pos hpos]
    split at h
    · cases h
    · next k hlive =>
      cases h
      exact .inl ⟨rfl, rfl, rfl⟩
  · next hpos =>
    rw [if_neg hpos]
    split at h
    · cases h
    · next name hname =>
      split at h
      · next hold =>
        split at h
        · cases h
        · next k hlive =>
          cases h
          refine .inl ⟨rfl, rfl, ?_⟩
          rw [if_pos hold]
      · split at h
        · cases h
        · next hcreate =>
          split at h
          · cases h
          · next new s'' hnew =>
            cases h
            exact .inr ⟨by simpa using hcreate, name, hnew⟩

theorem special_false {id : Int}
    (h : s.special c task id false = .ok (r, s', task')) : s = s' ∧ task = task' := by
  rcases special_ok h with ⟨hs, htask, -⟩ | ⟨hcreate, -⟩
  · exact ⟨hs.symm, htask.symm⟩
  · cases hcreate

theorem Lawful.special (h : Lawful s) {id : Int} (hok : s.special c task id create = .ok (r, s', task')) :
    Lawful s' := by
  rcases special_ok hok with ⟨rfl, -, -⟩ | ⟨-, name, hnew⟩
  · exact h
  · exact h.create hnew

theorem Lawful.setKey (h : Lawful s) (id : Nat) {f : Key → Key}
    (hlinks : ∀ k, (f k).links.Sublist k.links) (hkind : ∀ k, (f k).kind = k.kind)
    (hname : ∀ k, (f k).name = k.name) (huid : ∀ k, (f k).uid = k.uid)
    (hdata : ∀ k, (f k).payload ≤ k.payload) : Lawful (s.setKey id f) :=
  ⟨h.linked.setKey id hlinks hkind hname, h.inQuota.setKey id huid hdata⟩

theorem Lawful.setData (h : Lawful s)
    (hk : s.keys[id]? = some k) (hfits : FitsData s id data) : Lawful (s.setData id data) :=
  ⟨h.linked.setKey id (fun _ => .refl _) (fun _ => rfl) fun _ => rfl,
    h.inQuota.setData hk (hfits k hk)⟩

theorem inQuota_addLink (h : InQuota s) (ring id : Nat) : InQuota (s.addLink ring id) :=
  h.setKey ring (fun _ => rfl) fun _ => Nat.le_refl _

theorem Lawful.link (h : Lawful s) {ring : Nat}
    (hok : s.link c task id ring = .ok s') (hsees : SeesPath c s task id ring) : Lawful s' := by
  unfold State.link at hok
  obtain ⟨⟨⟩, hid, hok⟩ := bind_ok.mp hok
  obtain ⟨⟨⟩, hring, hok⟩ := bind_ok.mp hok
  obtain ⟨r, hr, hok⟩ := bind_ok.mp hok
  split at hok
  · cases hok
  split at hok
  · cases hok
  next hfinds =>
  obtain ⟨key, hkey, hok⟩ := bind_ok.mp hok
  obtain ⟨r', hr', hok⟩ := bind_ok.mp hok
  cases hok
  rw [hr] at hr'
  cases hr'
  set replaced := r.links.filter (s.named key.kind key.name) with hreplaced
  set drop : Key → Key := fun k =>
    { k with links := k.links.filter fun other => !replaced.contains other } with hdrop
  have hdropped : Lawful (s.setKey ring drop) :=
    h.setKey ring (fun _ => List.filter_sublist) (fun _ => rfl) (fun _ => rfl) (fun _ => rfl)
      fun _ => Nat.le_refl _
  have hpath : ¬ ReflTransGen s.Link id ring := fun hreach =>
    hsees hid hring ⟨hreach, by simpa using hfinds⟩
  have hlabel : (s.setKey ring drop).label = s.label := by
    funext a
    rw [State.label, State.label, State.setKey, get_modify]
    split
    · rw [Option.map_map]
      rfl
    · rfl
  have hidKey := live_ok hkey
  have hkept : ∃ k, (s.setKey ring drop).keys[id]? = some k := by
    rw [State.setKey, get_modify, hidKey]
    split <;> exact ⟨_, rfl⟩
  obtain ⟨k, hk⟩ := hkept
  refine ⟨hdropped.linked.addLink hk (fun r' hr' => ?_) fun hreach => hpath ?_,
    inQuota_addLink hdropped.inQuota ring id⟩
  · -- What was like the key has been dropped.
    rw [State.setKey, get_modify, if_pos rfl, live_ok hr] at hr'
    cases hr'
    rw [hlabel, List.mem_map]
    rintro ⟨other, hother, hsame⟩
    obtain ⟨hin, hnot⟩ := List.mem_filter.mp hother
    have hlike : s.named key.kind key.name other = true := by
      rw [named_eq_true, hsame, State.label, hidKey]
      rfl
    have hmem : other ∈ replaced := List.mem_filter.mpr ⟨hin, hlike⟩
    rw [List.contains_eq_mem, decide_eq_true hmem] at hnot
    cases hnot
  · refine ReflTransGen.mono ?_ _ _ hreach
    rintro a b ⟨k', hk', hb⟩
    rw [State.setKey, get_modify] at hk'
    split at hk'
    · obtain ⟨t, ht, rfl⟩ := Option.map_eq_some_iff.mp hk'
      exact ⟨t, ht, (List.mem_filter.mp hb).1⟩
    · exact ⟨k', hk', hb⟩

theorem sees_created (h : Lawful s) {new : Nat} (hok : s.create c kind name data = .ok (new, s'))
    (task : Task) (id : Nat) : SeesPath c s' task id new := by
  obtain ⟨k, rfl, rfl, hlinks, -⟩ := create_ok hok
  rintro - - ⟨hreach, hfinds⟩
  rcases hreach.cases_tail with heq | ⟨a, -, ⟨t, ht, hin⟩⟩
  · rw [← heq, State.finds, State.contains, if_pos rfl] at hfinds
    cases hfinds
  rw [get_insert] at ht
  split at ht
  · cases ht
    rw [hlinks] at hin
    cases hin
  · obtain ⟨u, hu⟩ := h.linked.named a t ht _ hin
    exact Nat.lt_irrefl _ (h.linked.fresh _ u hu)

theorem Lawful.linkSpecial {t : State} (h : Lawful s) {ring : Int}
    (hspecial : s.special c task ring create = .ok (r, s', task'))
    (hlink : s'.link c task' id r = .ok t)
    (hsees : s.special c task ring false = .ok (r, s, task) → SeesPath c s task id r) :
    Lawful t := by
  have hlawful := h.special hspecial
  rcases special_ok hspecial with ⟨rfl, rfl, hsame⟩ | ⟨-, name, hnew⟩
  · exact hlawful.link hlink (hsees hsame)
  · exact hlawful.link hlink (sees_created h hnew task' id)

theorem Lawful.linkCreated (h : Lawful s) {ring : Nat} {r : Key}
    (hok : s.create c kind name data = .ok (id, s')) (hr : s.keys[ring]? = some r)
    (hnone : r.links.find? (s.named kind name) = none) : Lawful (s'.addLink ring id) := by
  have hlawful := h.create hok
  obtain ⟨k, rfl, rfl, hlinks, rfl, rfl, -⟩ := create_ok hok
  have hne : ring ≠ s.next := by
    rintro rfl
    exact Nat.lt_irrefl _ (h.linked.fresh _ r hr)
  have hnew : (s.keys.insert s.next k)[s.next]? = some k := by rw [get_insert, if_pos rfl]
  refine ⟨hlawful.linked.addLink hnew (fun r' hr' => ?_) fun hreach => ?_,
    inQuota_addLink hlawful.inQuota ring _⟩
  · rw [get_insert, if_neg (Ne.symm hne), hr] at hr'
    cases hr'
    rw [List.mem_map]
    rintro ⟨other, hother, hsame⟩
    obtain ⟨u, hu⟩ := h.linked.named ring r hr other hother
    have hother' : (s.keys.insert s.next k)[other]? = some u := by
      rw [get_insert, if_neg, hu]
      rintro rfl
      exact Nat.lt_irrefl _ (h.linked.fresh _ u hu)
    refine absurd (List.find?_eq_none.mp hnone other hother) (not_not_intro ?_)
    rw [named_eq_true, State.label, hu]
    rw [State.label, State.label, hnew, hother'] at hsame
    exact hsame
  · rcases hreach.cases_head with heq | ⟨b, ⟨t, ht, hb⟩, -⟩
    · exact hne heq.symm
    · rw [hnew] at ht
      cases ht
      rw [hlinks] at hb
      cases hb

/-! ## One call -/

section Calls

variable {s : State} (h : Lawful s) {c : Caller} {task : Task}

include h

theorem join_lawful {name : Option String} {r : Nat × State × Task}
    (hok : s.join c task name = .ok r) : Lawful r.2.1 := by
  unfold State.join at hok
  split at hok
  · cases hok
  dsimp only at hok
  split at hok
  · cases hok
    exact h
  split at hok
  · cases hok
  · next id s' hnew =>
    cases hok
    exact h.create hnew

variable {result : Nat × State × Task}

theorem add_lawful {ring : Int} (hok : s.add c task kind name data ring = .ok result)
    (hallowed : Allowed s ⟨c, task, .add kind name data ring⟩) : Lawful result.2.1 := by
  unfold State.add at hok
  obtain ⟨⟨r, s', task'⟩, hspecial, hok⟩ := bind_ok.mp hok
  obtain ⟨⟨⟩, -, hok⟩ := bind_ok.mp hok
  obtain ⟨k, hk, hok⟩ := bind_ok.mp hok
  have hlawful := h.special hspecial
  split at hok
  · cases hok
  split at hok
  · next id hfind =>
    obtain ⟨⟨⟩, hpermission, hok⟩ := bind_ok.mp hok
    split at hok
    · cases hok
    next hlength =>
    cases hok
    obtain ⟨key, hkey⟩ := hlawful.linked.named r k (live_ok hk) id (List.mem_of_find?_eq_some hfind)
    refine hlawful.setData hkey ?_
    rcases special_ok hspecial with ⟨rfl, rfl, hsame⟩ | ⟨-, ring, hnew⟩
    · exact hallowed r k id hsame hk hfind hpermission (Nat.le_of_not_lt hlength)
    -- A ring that was just created has nothing to find.
    obtain ⟨new, rfl, rfl, hlinks, -⟩ := create_ok hnew
    have hget := live_ok hk
    rw [get_insert, if_pos rfl] at hget
    cases hget
    rw [hlinks] at hfind
    cases hfind
  · next hnone =>
    obtain ⟨⟨id, s''⟩, hnew, hok⟩ := bind_ok.mp hok
    cases hok
    exact hlawful.linkCreated hnew (live_ok hk) hnone

theorem search_lawful {ring destination : Int}
    (hok : s.search c task ring kind name destination = .ok result)
    (hallowed : Allowed s ⟨c, task, .search ring kind name destination⟩) : Lawful result.2.1 := by
  unfold State.search at hok
  obtain ⟨⟨r, s', task'⟩, hspecial, hok⟩ := bind_ok.mp hok
  obtain ⟨⟨⟩, -, hok⟩ := bind_ok.mp hok
  obtain ⟨k, hk, hok⟩ := bind_ok.mp hok
  obtain ⟨rfl, rfl⟩ := special_false hspecial
  split at hok
  · cases hok
  obtain ⟨id, hfound, hok⟩ := bind_ok.mp hok
  split at hok
  · obtain ⟨⟨d, s'', task''⟩, hdestination, hok⟩ := bind_ok.mp hok
    obtain ⟨t, hlink, hok⟩ := bind_ok.mp hok
    cases hok
    exact h.linkSpecial hdestination hlink (hallowed r id d hspecial hfound)
  · cases hok
    exact h

theorem command_lawful {id : Int} {op : Command} {result : Reply × State × Task}
    (hok : s.command c task id op = .ok result)
    (hallowed : Allowed s ⟨c, task, .command id op⟩) : Lawful result.2.1 := by
  unfold State.command at hok
  obtain ⟨⟨i, s', task'⟩, hspecial, hok⟩ := bind_ok.mp hok
  obtain ⟨⟨⟩, hpermission, hok⟩ := bind_ok.mp hok
  have hlawful := h.special hspecial
  cases op with
  | getId | getSecurity =>
    cases hok
    exact hlawful
  | update data =>
    obtain ⟨rfl, rfl⟩ := special_false hspecial
    obtain ⟨k, hk, hok⟩ := bind_ok.mp hok
    split at hok
    · cases hok
    split at hok
    · cases hok
    next hlength =>
    cases hok
    exact h.setData (live_ok hk) (hallowed i hspecial hpermission (Nat.le_of_not_lt hlength))
  | revoke | invalidate =>
    cases hok
    exact hlawful.setKey i (fun _ => List.nil_sublist _) (fun _ => rfl) (fun _ => rfl)
      (fun _ => rfl) fun _ => Nat.zero_le _
  | chown uid gid =>
    obtain ⟨rfl, rfl⟩ := special_false hspecial
    obtain ⟨t, hchown, hok⟩ := bind_ok.mp hok
    cases hok
    have hfits := hallowed i hspecial hpermission (by rw [hchown]; rfl)
    unfold State.chown at hchown
    obtain ⟨k, hk, hchown⟩ := bind_ok.mp hchown
    split at hchown
    · cases hchown
    split at hchown
    · cases hchown
    cases hchown
    have hkey := live_ok hk
    set uid' := if uid ≠ -1 then uid else k.uid with huid'
    set gid' := if gid ≠ -1 then gid else k.gid
    have hsame : (s.setKey i fun k =>
        { k with
          uid := if uid ≠ -1 then uid else k.uid
          gid := if gid ≠ -1 then gid else k.gid }) =
        s.setKey i fun k => { k with uid := uid', gid := gid' } := by
      unfold State.setKey
      rw [modify_eq_insert _ hkey, modify_eq_insert _ hkey]
    have hfitsOwner : uid' ≠ k.uid → s.owned uid' + 1 ≤ maxKeys uid' ∧
        s.sum uid' Key.payload + k.payload ≤ maxBytes uid' := by
      intro hne
      rw [huid'] at hne ⊢
      split at hne
      · next hset =>
        rw [if_pos hset]
        exact hfits k hkey hset hne
      · exact absurd rfl hne
    have hquota : InQuota (s.setKey i fun k => { k with uid := uid', gid := gid' }) :=
      h.inQuota.chown hkey hfitsOwner
    rw [← hsame] at hquota
    exact ⟨h.linked.setKey i (fun _ => .refl _) (fun _ => rfl) fun _ => rfl, hquota⟩
  | setPerm perm =>
    dsimp only [State.run] at hok
    split at hok
    · cases hok
    cases hok
    exact hlawful.setKey i (fun _ => .refl _) (fun _ => rfl) (fun _ => rfl) (fun _ => rfl)
      fun _ => Nat.le_refl _
  | describe =>
    obtain ⟨k, -, hok⟩ := bind_ok.mp hok
    cases hok
    exact hlawful
  | clear =>
    obtain ⟨k, -, hok⟩ := bind_ok.mp hok
    split at hok
    · cases hok
    cases hok
    exact hlawful.setKey i (fun _ => List.nil_sublist _) (fun _ => rfl) (fun _ => rfl)
      (fun _ => rfl) fun _ => Nat.le_refl _
  | link ring =>
    obtain ⟨rfl, rfl⟩ := special_false hspecial
    obtain ⟨⟨r, s'', task''⟩, hring, hok⟩ := bind_ok.mp hok
    obtain ⟨t, hlink, hok⟩ := bind_ok.mp hok
    cases hok
    exact h.linkSpecial hring hlink (hallowed i r hspecial)
  | unlink ring =>
    obtain ⟨⟨r, s'', task''⟩, hring, hok⟩ := bind_ok.mp hok
    obtain ⟨rfl, rfl⟩ := special_false hring
    obtain ⟨⟨⟩, -, hok⟩ := bind_ok.mp hok
    obtain ⟨k, -, hok⟩ := bind_ok.mp hok
    split at hok
    · cases hok
    split at hok
    · cases hok
    cases hok
    exact hlawful.setKey r (fun _ => List.filter_sublist) (fun _ => rfl) (fun _ => rfl)
      (fun _ => rfl) fun _ => Nat.le_refl _
  | read =>
    obtain ⟨k, -, hok⟩ := bind_ok.mp hok
    split at hok
    · cases hok
    cases hok
    exact hlawful
  | setTimeout seconds =>
    dsimp only [State.run] at hok
    split at hok
    · cases hok
      exact hlawful.setKey i (fun _ => .refl _) (fun _ => rfl) (fun _ => rfl) (fun _ => rfl)
        fun _ => Nat.le_refl _
    split at hok
    · cases hok
    cases hok
    exact hlawful.setKey i (fun _ => .refl _) (fun _ => rfl) (fun _ => rfl) (fun _ => rfl)
      fun _ => Nat.le_refl _

end Calls

theorem step_lawful (h : Lawful s) (call : Call) (hallowed : Allowed s call) :
    Lawful (s.step call) := by
  unfold State.step
  cases hresult : s.result call with
  | error e => exact h
  | ok s' =>
    dsimp only
    obtain ⟨c, task, op⟩ := call
    cases op with
    | join name =>
      obtain ⟨r, hok, rfl⟩ := map_ok hresult
      exact join_lawful h hok
    | add kind name data ring =>
      obtain ⟨r, hok, rfl⟩ := map_ok hresult
      exact add_lawful h hok hallowed
    | search ring kind name destination =>
      obtain ⟨r, hok, rfl⟩ := map_ok hresult
      exact search_lawful h hok hallowed
    | command id op =>
      obtain ⟨r, hok, rfl⟩ := map_ok hresult
      exact command_lawful h hok hallowed

/-- In a run of calls that are allowed where they are made, no keyring is ever above itself, every
link names a key, no keyring holds two keys of one type and description, and no user owns more
than the quotas allow. -/
theorem keyrings_lawful (calls : List Call) (h : EveryStep State.step Allowed {} calls) :
    EveryState State.step Lawful {} calls :=
  EveryState.of_preserved (fun _ call hs hallowed => step_lawful hs call hallowed)
    ⟨linked_start, inQuota_start⟩ h

/-- A user who is in no other group and has no capabilities. -/
def user (now : Nat) : Caller where
  uid := 1000
  gid := 1000
  member gid := gid == 1000
  ns := 1
  capable _ := false
  now

/-- A key is added to a new session keyring, and updated. -/
def updateCalls : List Call :=
  [⟨user 10, {}, .join none⟩, ⟨user 10, { session := 1 }, .add "user" "a" [1, 2, 3] (-3)⟩,
    ⟨user 10, { session := 1 }, .command 2 (.update [4])⟩]

theorem keyrings_lawful_updated : EveryState State.step Lawful {} updateCalls := by
  refine keyrings_lawful updateCalls ⟨trivial, ?_, ?_, trivial⟩
  · intro r k id hspecial hlive hfind
    have hring : ((State.step {} ⟨user 10, {}, .join none⟩).special (user 10) { session := 1 } (-3)
        false).map Prod.fst = .ok 1 := by decide
    have hr : r = 1 := by
      dsimp only at hspecial
      rw [hspecial] at hring
      exact Except.ok.inj hring
    subst hr
    have hlinks : (State.step {} ⟨user 10, {}, .join none⟩).keys[1]?.map Key.links = some [] := by
      decide
    rw [live_ok hlive] at hlinks
    rw [Option.some.inj hlinks] at hfind
    cases hfind
  intro i hspecial _ _ k hk
  have hkey : ((State.step (State.step {} ⟨user 10, {}, .join none⟩)
      ⟨user 10, { session := 1 }, .add "user" "a" [1, 2, 3] (-3)⟩).special (user 10)
        { session := 1 } 2 false).map Prod.fst = .ok 2 := by decide
  have hi : i = 2 := by
    dsimp only at hspecial
    rw [hspecial] at hkey
    exact Except.ok.inj hkey
  subst hi
  have huid : (State.step (State.step {} ⟨user 10, {}, .join none⟩)
      ⟨user 10, { session := 1 }, .add "user" "a" [1, 2, 3] (-3)⟩).keys[2]?.map Key.uid =
        some 1000 := by decide
  have hsum : (State.step (State.step {} ⟨user 10, {}, .join none⟩)
      ⟨user 10, { session := 1 }, .add "user" "a" [1, 2, 3] (-3)⟩).sum 1000 Key.payload = 3 := by
    decide
  rw [hk] at huid
  rw [Option.some.inj huid, hsum]
  have hbytes : maxBytes 1000 = 20000 := by decide
  simp only [List.length_cons, List.length_nil]
  omega

/-! ## A cycle through a keyring that has expired -/

/-- The session, thread and process keyrings 1, 2 and 3. -/
def rings : Task := { session := 1, thread := 2, process := 3 }

/-- The keyrings are made and linked, the second one expires, and the first one is linked into
the third. -/
def cycleCalls : List Call :=
  [⟨user 10, {}, .join none⟩, ⟨user 10, { session := 1 }, .command (-1) (.getId true)⟩,
    ⟨user 10, { session := 1, thread := 2 }, .command (-2) (.getId true)⟩,
    ⟨user 10, rings, .command (-1) (.link (-3))⟩,
    ⟨user 10, rings, .command (-2) (.link (-1))⟩,
    ⟨user 10, rings, .command (-1) (.setTimeout 1)⟩,
    ⟨user 20, rings, .command (-3) (.link (-2))⟩]

/-- Not every run keeps the links without cycles: the search for the third keyring stops at the
second one. -/
theorem cycle_closes : ¬ ∀ calls, EveryState State.step Lawful {} calls := by
  intro h
  have hlast := (h cycleCalls).last
  have hlink : ∀ {a b : Nat}, (run State.step {} cycleCalls).keys[a]?.map Key.links = some [b] →
        (run State.step {} cycleCalls).Link a b := by
    intro a b hlinks
    obtain ⟨k, hk, hb⟩ := Option.map_eq_some_iff.mp hlinks
    exact ⟨k, hk, by rw [hb]; exact List.mem_singleton.mpr rfl⟩
  have hone : (run State.step {} cycleCalls).Link 1 2 := hlink (by decide)
  have htwo : (run State.step {} cycleCalls).Link 2 3 := hlink (by decide)
  have hthree : (run State.step {} cycleCalls).Link 3 1 := hlink (by decide)
  exact hlast.linked.acyclic 1 (.tail (.tail (.single hone) htwo) hthree)

end Kinakaze.Keyring
