import Kinakaze.Keyring.State

/-!
# The quotas of the keys' owners

* `InQuota`: no user owns more keys, or more payload, than allowed.
* `InQuota.create`: what is created is charged.
* `InQuota.setKey`, `InQuota.setData`, `InQuota.chown`: changed keys.
-/

namespace Kinakaze.Keyring

open Library

def Key.payload (k : Key) : Nat := k.data.length

structure InQuota (s : State) : Prop where
  keys : ∀ uid, s.owned uid ≤ maxKeys uid
  bytes : ∀ uid, s.sum uid Key.payload ≤ maxBytes uid

theorem inQuota_start : InQuota {} where
  keys uid := by
    have hzero : State.owned {} uid = 0 := rfl
    omega
  bytes uid := by
    have hzero : State.sum {} uid Key.payload = 0 := rfl
    omega

theorem payload_le_charge (s : State) (uid : BitVec 32) :
    s.sum uid Key.payload ≤ s.sum uid Key.charge :=
  total_le_total _ fun k => by
    split
    · exact Nat.le_add_right _ _
    · exact Nat.le_refl _

section Changed

variable {s : State} {id : Nat} {k : Key}

theorem owned_setKey (hk : s.keys[id]? = some k) (f : Key → Key) (uid : BitVec 32) :
    (s.setKey id f).owned uid + (if k.uid = uid then 1 else 0) =
      s.owned uid + if (f k).uid = uid then 1 else 0 := by
  have hcount := countIf_modify (fun k : Key => k.uid == uid) f hk
  simp only [beq_iff_eq] at hcount
  exact hcount

theorem sum_setKey (hk : s.keys[id]? = some k) (f : Key → Key) (uid : BitVec 32)
    (weight : Key → Nat) :
    (s.setKey id f).sum uid weight + (if k.uid = uid then weight k else 0) =
      s.sum uid weight + if (f k).uid = uid then weight (f k) else 0 :=
  total_modify _ f hk

variable (h : InQuota s)

include h

theorem InQuota.create {k : Key} (hnone : s.keys[s.next]? = none)
    (hkeys : s.owned k.uid < maxKeys k.uid)
    (hbytes : s.sum k.uid Key.charge + k.charge ≤ maxBytes k.uid) :
    InQuota { next := s.next + 1, keys := s.keys.insert s.next k } where
  keys uid := by
    have hcount := countIf_insert_new (fun k : Key => k.uid == uid) k hnone
    have hold := h.keys uid
    unfold State.owned at hold hkeys ⊢
    rw [hcount]
    by_cases huid : k.uid = uid
    · subst huid
      simp only [BEq.rfl, if_true]
      omega
    · simp only [beq_iff_eq, huid, if_false]
      omega
  bytes uid := by
    have hsum := total_insert_new (fun k : Key => if k.uid = uid then k.payload else 0) k hnone
    have hold := h.bytes uid
    have hcharge := payload_le_charge s k.uid
    have hpayload : k.payload ≤ k.charge := Nat.le_add_right _ _
    unfold State.sum at hold hcharge hbytes ⊢
    rw [hsum]
    by_cases huid : k.uid = uid
    · subst huid
      simp only [if_true]
      omega
    · simp only [huid, if_false]
      omega

theorem InQuota.setKey (id : Nat) {f : Key → Key} (huid : ∀ k, (f k).uid = k.uid)
    (hdata : ∀ k, (f k).payload ≤ k.payload) : InQuota (s.setKey id f) := by
  cases hk : s.keys[id]? with
  | none =>
    have hsame : s.setKey id f = s := by
      have hkeys : s.keys.modify id f = s.keys := modify_eq_self f fun k hk' => by
        rw [hk] at hk'
        cases hk'
      rw [State.setKey, hkeys]
    rw [hsame]
    exact h
  | some k =>
    refine ⟨fun uid => ?_, fun uid => ?_⟩
    · have howned := owned_setKey hk f uid
      have hold := h.keys uid
      rw [huid] at howned
      omega
    · have hsum := sum_setKey hk f uid Key.payload
      have hold := h.bytes uid
      have hless := hdata k
      rw [huid] at hsum
      split at hsum <;> omega

theorem InQuota.setData {data : List (BitVec 8)} (hk : s.keys[id]? = some k)
    (hfits : s.sum k.uid Key.payload + data.length ≤ maxBytes k.uid + k.payload) :
    InQuota (s.setData id data) := by
  have hset : s.setData id data = s.setKey id fun k => { k with data } := rfl
  rw [hset]
  refine ⟨fun uid => ?_, fun uid => ?_⟩
  · have howned := owned_setKey hk (fun k => { k with data }) uid
    have hold := h.keys uid
    dsimp only at howned
    omega
  · have hsum := sum_setKey hk (fun k => { k with data }) uid Key.payload
    have hold := h.bytes uid
    dsimp only [Key.payload] at hsum hfits ⊢
    split at hsum
    · next huid =>
      subst huid
      omega
    · omega

theorem InQuota.chown {uid gid : BitVec 32} (hk : s.keys[id]? = some k)
    (hfits : uid ≠ k.uid → s.owned uid + 1 ≤ maxKeys uid ∧
      s.sum uid Key.payload + k.payload ≤ maxBytes uid) :
    InQuota (s.setKey id fun k => { k with uid, gid }) := by
  refine ⟨fun u => ?_, fun u => ?_⟩
  · have howned := owned_setKey hk (fun k => { k with uid, gid }) u
    have hold := h.keys u
    dsimp only at howned
    by_cases hsame : uid = k.uid
    · subst hsame
      omega
    by_cases hu : uid = u
    · subst hu
      have hroom := (hfits hsame).1
      rw [if_pos rfl] at howned
      split at howned <;> omega
    · rw [if_neg hu] at howned
      split at howned <;> omega
  · have hsum := sum_setKey hk (fun k => { k with uid, gid }) u Key.payload
    have hold := h.bytes u
    dsimp only [Key.payload] at hsum hold hfits ⊢
    by_cases hsame : uid = k.uid
    · subst hsame
      omega
    by_cases hu : uid = u
    · subst hu
      have hroom := (hfits hsame).2
      rw [if_pos rfl] at hsum
      split at hsum <;> omega
    · rw [if_neg hu] at hsum
      split at hsum <;> omega

end Changed

end Kinakaze.Keyring
