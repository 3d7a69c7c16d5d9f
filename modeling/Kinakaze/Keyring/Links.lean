import Kinakaze.Keyring.State
import Kinakaze.Library.Cycles

/-!
# The links of the keyrings

* `Linked`: every link names a key, no keyring holds two keys of one type and description, and
  no keyring is above itself.
* `Linked.create`, `Linked.setKey`, `Linked.addLink`: what keeps it so.
-/

namespace Kinakaze.Keyring

open Library Relation

/-- The first key holds a link to the second. -/
def State.Link (s : State) (ring id : Nat) : Prop := ∃ k, s.keys[ring]? = some k ∧ id ∈ k.links

/-- The type and description of a key. -/
def State.label (s : State) (id : Nat) : Option (String × String) :=
  s.keys[id]?.map fun k => (k.kind, k.name)

structure Linked (s : State) : Prop where
  fresh : ∀ (id : Nat) (k : Key), s.keys[id]? = some k → id < s.next
  named : ∀ (id : Nat) (k : Key), s.keys[id]? = some k → ∀ l ∈ k.links, ∃ k', s.keys[l]? = some k'
  unique : ∀ (id : Nat) (k : Key), s.keys[id]? = some k → (k.links.map s.label).Nodup
  acyclic : Acyclic s.Link

/-- The search does not find the key, although links lead to it. -/
def Misses (now : Nat) (s : State) (root wanted : Nat) : Prop :=
  ReflTransGen s.Link root wanted ∧ s.finds now root wanted = false

theorem named_eq_true {s : State} {kind name : String} {id : Nat} :
    s.named kind name id = true ↔ s.label id = some (kind, name) := by
  unfold State.named State.label
  cases s.keys[id]? with
  | none => simp
  | some k => simp

theorem linked_start : Linked {} where
  fresh id k hk := by simp at hk
  named id k hk := by simp at hk
  unique id k hk := by simp at hk
  acyclic a h := by
    obtain ⟨b, ⟨k, hk, -⟩, -⟩ := TransGen.head'_iff.mp h
    simp at hk

/-! ## The depth of the search -/

/-! ## Changed keys -/

section Changed

variable {s : State} (h : Linked s)

include h

theorem Linked.setKey (id : Nat) {f : Key → Key} (hlinks : ∀ k, (f k).links.Sublist k.links)
    (hkind : ∀ k, (f k).kind = k.kind) (hname : ∀ k, (f k).name = k.name) :
    Linked (s.setKey id f) := by
  have hget : ∀ (a : Nat) (k' : Key), (s.setKey id f).keys[a]? = some k' →
      ∃ k, s.keys[a]? = some k ∧ k'.links.Sublist k.links := by
    intro a k' hk'
    rw [State.setKey, get_modify] at hk'
    split at hk'
    · obtain ⟨k, hk, rfl⟩ := Option.map_eq_some_iff.mp hk'
      exact ⟨k, hk, hlinks k⟩
    · exact ⟨k', hk', .refl _⟩
  have hlabel : (s.setKey id f).label = s.label := by
    funext a
    rw [State.label, State.label, State.setKey, get_modify]
    split
    · rw [Option.map_map]
      refine congrArg (Option.map · _) (funext fun k => ?_)
      rw [Function.comp, hkind, hname]
    · rfl
  refine ⟨fun a k' hk' => ?_, fun a k' hk' l hl => ?_, fun a k' hk' => ?_, ?_⟩
  · obtain ⟨k, hk, -⟩ := hget a k' hk'
    exact h.fresh a k hk
  · obtain ⟨k, hk, hsub⟩ := hget a k' hk'
    obtain ⟨t, ht⟩ := h.named a k hk l (hsub.subset hl)
    rw [State.setKey, get_modify, ht]
    split
    · exact ⟨f t, rfl⟩
    · exact ⟨t, rfl⟩
  · obtain ⟨k, hk, hsub⟩ := hget a k' hk'
    rw [hlabel]
    exact (h.unique a k hk).sublist (hsub.map _)
  · refine h.acyclic.mono ?_
    rintro a b ⟨k', hk', hb⟩
    obtain ⟨k, hk, hsub⟩ := hget a k' hk'
    exact ⟨k, hk, hsub.subset hb⟩

theorem Linked.create {k : Key} (hk : k.links = []) :
    Linked { next := s.next + 1, keys := s.keys.insert s.next k } := by
  have hnew : s.keys[s.next]? = none := by
    cases hn : s.keys[s.next]? with
    | none => rfl
    | some k' => exact absurd (h.fresh _ k' hn) (Nat.lt_irrefl _)
  have hget : ∀ (a : Nat) (k' : Key), (s.keys.insert s.next k)[a]? = some k' →
      (a = s.next ∧ k' = k) ∨ (a ≠ s.next ∧ s.keys[a]? = some k') := by
    intro a k' ha
    rw [get_insert] at ha
    split at ha
    · next heq => exact .inl ⟨heq.symm, (Option.some.inj ha).symm⟩
    · next hne => exact .inr ⟨Ne.symm hne, ha⟩
  have hold : ∀ {l : Nat} {k' : Key}, s.keys[l]? = some k' →
      (s.keys.insert s.next k)[l]? = some k' := by
    intro l k' hl
    rw [get_insert, if_neg, hl]
    rintro rfl
    rw [hnew] at hl
    cases hl
  refine ⟨fun a k' ha => ?_, fun a k' ha l hl => ?_, fun a k' ha => ?_, ?_⟩
  · show a < s.next + 1
    rcases hget a k' ha with ⟨rfl, -⟩ | ⟨-, ha⟩
    · exact Nat.lt_succ_self _
    · exact Nat.lt_succ_of_lt (h.fresh a k' ha)
  · rcases hget a k' ha with ⟨-, rfl⟩ | ⟨-, ha⟩
    · rw [hk] at hl
      cases hl
    · obtain ⟨t, ht⟩ := h.named a k' ha l hl
      exact ⟨t, hold ht⟩
  · rcases hget a k' ha with ⟨-, rfl⟩ | ⟨-, ha⟩
    · rw [hk]
      exact List.nodup_nil
    · have hsame : k'.links.map (State.label { next := s.next + 1, keys := s.keys.insert s.next k }) =
          k'.links.map s.label := List.map_congr_left fun l hl => by
        obtain ⟨t, ht⟩ := h.named a k' ha l hl
        rw [State.label, State.label, hold ht, ht]
      rw [hsame]
      exact h.unique a k' ha
  · refine h.acyclic.mono ?_
    rintro a b ⟨k', ha, hb⟩
    rcases hget a k' ha with ⟨-, rfl⟩ | ⟨-, ha⟩
    · rw [hk] at hb
      cases hb
    · exact ⟨k', ha, hb⟩

theorem Linked.addLink {ring id : Nat} {k : Key} (hid : s.keys[id]? = some k)
    (hnew : ∀ r, s.keys[ring]? = some r → s.label id ∉ r.links.map s.label)
    (hpath : ¬ ReflTransGen s.Link id ring) : Linked (s.addLink ring id) := by
  have hget : ∀ (a : Nat) (k' : Key), (s.addLink ring id).keys[a]? = some k' →
      ∃ k, s.keys[a]? = some k ∧ k'.links = if a = ring then k.links ++ [id] else k.links := by
    intro a k' hk'
    rw [State.addLink, get_modify] at hk'
    split at hk'
    · next heq =>
      obtain ⟨k, hk, rfl⟩ := Option.map_eq_some_iff.mp hk'
      exact ⟨k, hk, by rw [if_pos heq.symm]⟩
    · next hne => exact ⟨k', hk', by rw [if_neg (Ne.symm hne)]⟩
  have hlabel : (s.addLink ring id).label = s.label := by
    funext a
    rw [State.label, State.label, State.addLink, get_modify]
    split
    · rw [Option.map_map]
      rfl
    · rfl
  refine ⟨fun a k' hk' => ?_, fun a k' hk' l hl => ?_, fun a k' hk' => ?_, ?_⟩
  · obtain ⟨k, hk, -⟩ := hget a k' hk'
    exact h.fresh a k hk
  · obtain ⟨t, ht, hlinks⟩ := hget a k' hk'
    have hin : ∃ u, s.keys[l]? = some u := by
      rw [hlinks] at hl
      split at hl
      · rcases List.mem_append.mp hl with hl | hl
        · exact h.named a t ht l hl
        · rw [List.mem_singleton.mp hl]
          exact ⟨k, hid⟩
      · exact h.named a t ht l hl
    obtain ⟨u, hu⟩ := hin
    rw [State.addLink, get_modify, hu]
    split
    · exact ⟨_, rfl⟩
    · exact ⟨u, rfl⟩
  · obtain ⟨t, ht, hlinks⟩ := hget a k' hk'
    rw [hlabel, hlinks]
    split
    · next heq =>
      subst heq
      rw [List.map_append, List.map_cons, List.map_nil]
      exact List.Nodup.append (h.unique a t ht) (List.nodup_singleton _)
        (List.disjoint_singleton.mpr (hnew t ht))
    · exact h.unique a t ht
  · have hnone : ¬ ∃ target, target = id ∧ ReflTransGen s.Link target ring := by
      rintro ⟨_, rfl, hreach⟩
      exact hpath hreach
    refine (h.acyclic.extend hnone).mono ?_
    rintro a b ⟨k', hk', hb⟩
    obtain ⟨t, ht, hlinks⟩ := hget a k' hk'
    rw [hlinks] at hb
    split at hb
    · next heq =>
      rcases List.mem_append.mp hb with hb | hb
      · exact .inl ⟨t, ht, hb⟩
      · exact .inr ⟨heq, List.mem_singleton.mp hb⟩
    · exact .inl ⟨t, ht, hb⟩

end Changed

end Kinakaze.Keyring
