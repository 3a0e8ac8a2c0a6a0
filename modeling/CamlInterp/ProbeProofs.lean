import CamlInterp.IteratorProofs

/-! # The representation of a reachable hash table

    What every table that calls of `ht_set` leave looks like, slot by slot: the
    capacity, the length, and the occupied way from the home slot of a key to its
    slot.  Half of the slots are free, so no probe goes around more than once. -/

namespace CamlProbe

open CamlValue LinearProbe CamlHashTable CamlIterator

variable {α : Type} {t t' : Ht α} {a a' : Allocator}

/-! ## What the invariant says of the slots -/

/-- Slot `i` holds a key. -/
def Occupied (t : Ht α) (i : Nat) : Prop :=
  ∃ e, t.entries[i]? = some e ∧ e.key ≠ nullCode

/-- The number of slots with a key that is not NULL. -/
def occupiedSlots (t : Ht α) : Nat := t.entries.countP (fun e => e.key != nullCode)

/-- The representation invariant of a table. -/
structure RepOk (t : Ht α) : Prop where
  twoPow : ∃ b, t.capacity.toNat = 2 ^ b
  base : 16 ≤ t.capacity.toNat
  length_eq : t.length.toNat = occupiedSlots t
  half : t.length.toNat ≤ t.capacity.toNat / 2
  unique : ∀ (i j : Nat) (e e' : HtEntry α), t.entries[i]? = some e → t.entries[j]? = some e' →
    e.key ≠ nullCode → e.key = e'.key → i = j
  path : ∀ (j : Nat) (e : HtEntry α), t.entries[j]? = some e → e.key ≠ nullCode →
    ∃ d, d < t.capacity.toNat ∧ j = (homeOf t.capacity e.key + d) % t.capacity.toNat ∧
      ∀ u, u < d → Occupied t ((homeOf t.capacity e.key + u) % t.capacity.toNat)

theorem keyAt_of_key {i : Nat} {e : HtEntry α} (h : t.entries[i]? = some e)
    (hk : e.key ≠ nullCode) : keyAt entryKey t.entries i = some e.key :=
  keyAt_eq_some.mpr ⟨e, h, entryKey_eq_some.mpr ⟨rfl, hk⟩⟩

theorem occupiedSlots_eq (t : Ht α) : occupiedSlots t = occupied entryKey t.entries := by
  unfold occupiedSlots occupied
  refine List.countP_congr (fun e _ => ?_)
  unfold entryKey
  by_cases hk : e.key = nullCode
  · simp [hk]
  · simp [hk]

/-- A slot that a probe moves past holds another key. -/
theorem occupied_of_not_stops {k : CodePtr} {i : Nat} (h : ¬ Stops entryKey t.entries k i) :
    Occupied t i := by
  cases hkey : keyAt entryKey t.entries i with
  | none => exact absurd (fun k' hk' => nomatch hkey.symm.trans hk') h
  | some k' =>
      obtain ⟨e, he, hk⟩ := keyAt_eq_some.mp hkey
      obtain ⟨heq, hne⟩ := entryKey_eq_some.mp hk
      exact ⟨e, he, by rw [heq]; exact hne⟩

/-- The way to a key is the way of the probe that finds it. -/
theorem repOk (h : t.WellFormed) (hpow : ∃ b, t.capacity.toNat = 2 ^ b) : RepOk t := by
  refine ⟨hpow, h.base, ?_, ?_, fun i j e e' hi hj hk heq => ?_, fun j e hj hk => ?_⟩
  · rw [occupiedSlots_eq]
    exact h.count
  · rw [h.count]
    exact h.half
  · have hi' := keyAt_of_key hi hk
    rw [heq] at hk
    have hj' := keyAt_of_key hj hk
    rw [← heq] at hj'
    exact h.placed.unique hi' hj'
  · -- what the probe moved past on its way here is occupied
    have hfound := h.placed.found j e.key (keyAt_of_key hj hk)
    obtain ⟨d, hd, hjd, -, hpast⟩ := first_of_probe (h.placed.home_lt e.key) hfound
    rw [t.sized] at hd hjd hpast
    exact ⟨d, hd, hjd, fun u hu => occupied_of_not_stops (hpast u hu)⟩

/-! ## The capacity -/

theorem setInPlace_capacity {key : CodePtr} {value : Option α}
    (h : setInPlace t key value = .ok t') : t'.capacity = t.capacity := by
  unfold setInPlace at h
  split at h
  · exact nomatch h
  · rw [← Except.ok.inj h]

/-- `ht_expand` moves the entries into an array of twice the size. -/
theorem htExpand_some (h : htExpand a t = .ok (some t', a')) :
    t'.capacity = t.capacity * 2#64 ∧
      reinsert (t.capacity * 2#64) t.entries
        (zeroed (t.capacity * 2#64) t.length : Ht α).entries = .ok t'.entries := by
  unfold htExpand at h
  simp only at h
  by_cases hover : t.capacity * 2#64 < t.capacity
  · rw [if_pos hover] at h
    cases (Prod.mk.inj (Except.ok.inj h)).1
  · rw [if_neg hover] at h
    by_cases hok : (a.request ((t.capacity * 2#64).toNat * sizeofEntry)).1 = true
    · rw [if_pos hok] at h
      split at h
      · cases h
      · rename_i entries hre
        obtain rfl := Option.some.inj (Prod.mk.inj (Except.ok.inj h)).1
        exact ⟨rfl, hre⟩
    · rw [if_neg hok] at h
      cases (Prod.mk.inj (Except.ok.inj h)).1

/-- `ht_set` keeps the capacity or doubles it. -/
theorem htSet_capacity {key r : CodePtr} {value : Option α}
    (h : htSet a t key value = .ok (r, t', a')) :
    t'.capacity = t.capacity ∨ t'.capacity = t.capacity * 2#64 := by
  obtain ⟨hk, v, rfl⟩ := htSet_some h
  unfold htSet at h
  rw [if_neg (by simp), if_neg hk] at h
  by_cases hfull : t.capacity / 2#64 ≤ t.length
  · rw [if_pos hfull] at h
    obtain ⟨⟨o, b⟩, hex, hrest⟩ := bind_eq_ok.mp h
    cases o with
    | none =>
        obtain ⟨-, heq⟩ := Prod.mk.inj (Except.ok.inj hrest)
        rw [← (Prod.mk.inj heq).1]
        exact Or.inl rfl
    | some t2 =>
        obtain ⟨t3, hset, hlast⟩ := bind_eq_ok.mp hrest
        obtain ⟨-, heq⟩ := Prod.mk.inj (Except.ok.inj hlast)
        rw [← (Prod.mk.inj heq).1, setInPlace_capacity hset, (htExpand_some hex).1]
        exact Or.inr rfl
  · rw [if_neg hfull] at h
    obtain ⟨t3, hset, hlast⟩ := bind_eq_ok.mp h
    obtain ⟨-, heq⟩ := Prod.mk.inj (Except.ok.inj hlast)
    rw [← (Prod.mk.inj heq).1, setInPlace_capacity hset]
    exact Or.inl rfl

theorem wellFormed_of_reachable (h : Reachable t a) : t.WellFormed := by
  obtain ⟨m, hrep, -⟩ := h.sound
  exact hrep.toWellFormed

theorem double_toNat (h : t.WellFormed) :
    (t.capacity * 2#64).toNat = t.capacity.toNat * 2 := by
  have hfits := h.fits
  unfold sizeofEntry at hfits
  rw [BitVec.toNat_mul]
  exact Nat.mod_eq_of_lt (by show t.capacity.toNat * 2 < _; omega)

/-- The capacity starts at 16 and is only ever doubled. -/
theorem twoPow_of_reachable (h : Reachable t a) : ∃ b, t.capacity.toNat = 2 ^ b := by
  induction h with
  | create hcreate =>
      refine ⟨4, ?_⟩
      unfold htCreate at hcreate
      simp only at hcreate
      split at hcreate
      · split at hcreate
        · rw [← Option.some.inj (Prod.mk.inj hcreate).1]
          rfl
        · exact nomatch (Prod.mk.inj hcreate).1
      · exact nomatch (Prod.mk.inj hcreate).1
  | set key value hreach hset ih =>
      obtain ⟨b, hb⟩ := ih
      -- a capacity in bytes fits `size_t`, so doubling it does not wrap
      rcases htSet_capacity hset with hcap | hcap
      · exact ⟨b, by rw [hcap]; exact hb⟩
      · refine ⟨b + 1, ?_⟩
        rw [hcap, double_toNat (wellFormed_of_reachable hreach), hb, Nat.pow_succ]

/-! ## The loops end -/

/-- The probe loop of any key looks at no more slots than there are. -/
theorem walk_ends (h : t.WellFormed) (k : CodePtr) :
    ∃ r, walk t.entries t.capacity k t.capacity.toNat (slotOf t.capacity k) = .ok r := by
  have hbase := h.base
  obtain ⟨j, hp, -⟩ := h.probe_ends k
  rw [t.sized] at hp
  obtain ⟨e, -, hw⟩ := walk_of_probe t.sized (homeOf_lt (by omega) k) hp
  exact ⟨_, hw⟩

/-- The loop of `ht_expand`, up to one entry. -/
theorem reinsert_split {capacity : BitVec 64} {e : HtEntry α} {back last : List (HtEntry α)}
    (hk : e.key ≠ nullCode) (front : List (HtEntry α)) : ∀ {entries : List (HtEntry α)},
    reinsert capacity (front ++ e :: back) entries = .ok last →
    ∃ mid r, reinsert capacity front entries = .ok mid ∧ mid.length = entries.length ∧
      walk mid capacity e.key mid.length (slotOf capacity e.key) = .ok r := by
  induction front with
  | nil =>
      intro entries h
      rw [List.nil_append, reinsert, if_pos hk] at h
      obtain ⟨x, hset, -⟩ := bind_eq_ok.mp h
      unfold htSetEntry at hset
      rw [if_neg hk] at hset
      obtain ⟨r, hw, -⟩ := bind_eq_ok.mp hset
      exact ⟨entries, r, rfl, rfl, hw⟩
  | cons e' front ih =>
      intro entries h
      rw [List.cons_append, reinsert] at h
      by_cases hk' : e'.key ≠ nullCode
      · rw [if_pos hk'] at h
        obtain ⟨⟨next, new⟩, hset, hrest⟩ := bind_eq_ok.mp h
        obtain ⟨mid, r, hmid, hlen, hw⟩ := ih hrest
        refine ⟨mid, r, ?_, hlen.trans (length_of_htSetEntry hset), hw⟩
        rw [reinsert, if_pos hk']
        exact bind_eq_ok.mpr ⟨_, hset, hmid⟩
      · rw [if_neg hk'] at h
        obtain ⟨mid, r, hmid, hlen, hw⟩ := ih h
        refine ⟨mid, r, ?_, hlen, hw⟩
        rw [reinsert, if_neg hk']
        exact hmid

/-- `ht_set_entry` ends with any key and value. -/
theorem htSetEntry_ends (h : t.WellFormed) {k : CodePtr} (hk : k ≠ nullCode)
    (v : Option α) : ∃ r, htSetEntry t.entries t.capacity k v = .ok r := by
  have hbase := h.base
  obtain ⟨j, hp, -⟩ := h.probe_ends k
  exact ⟨_, htSetEntry_eq t.sized (by omega) hk hp v⟩

/-- **REPRESENTATION**: a table that calls of `ht_set` have left satisfies the
    invariant, and every probe ends within as many steps as there are slots: those of
    `ht_get` and `ht_set_entry` for any key, those that `ht_set` runs, and those of
    every entry that `ht_expand` moves. -/
theorem reachable_repOk (h : Reachable t a) :
    RepOk t ∧
    (∀ k, (∃ r, walk t.entries t.capacity k t.capacity.toNat (slotOf t.capacity k) = .ok r) ∧
      (∃ v, htGet t k = .ok v) ∧
      (k ≠ nullCode → ∀ v, (∃ r, htSetEntry t.entries t.capacity k v = .ok r) ∧
        (v ≠ none → ∀ b, ∃ r, htSet b t k v = .ok r))) ∧
    ∀ b, (∃ r, htExpand b t = .ok r) ∧
      ∀ t' b', htExpand b t = .ok (some t', b') → ∀ (front : List (HtEntry α)) e back,
        t.entries = front ++ e :: back → e.key ≠ nullCode →
        ∃ mid r, reinsert t'.capacity front
            (zeroed t'.capacity t.length : Ht α).entries = .ok mid ∧
          walk mid t'.capacity e.key t'.capacity.toNat (slotOf t'.capacity e.key) = .ok r := by
  obtain ⟨m, hrep, -⟩ := h.sound
  have hwf := hrep.toWellFormed
  refine ⟨repOk hwf (twoPow_of_reachable h), fun k => ⟨walk_ends hwf k,
    ⟨_, hrep.htGet_eq k⟩, fun hk v => ⟨htSetEntry_ends hwf hk v, fun hv b => ?_⟩⟩,
    fun b => ⟨?_, fun t' b' hex front e back hsplit hk => ?_⟩⟩
  · obtain ⟨w, rfl⟩ := Option.ne_none_iff_exists'.mp hv
    obtain ⟨r, t', b', hset, -⟩ := hrep.htSet_spec hk w b
    exact ⟨_, hset⟩
  · obtain ⟨o, b', hex, -⟩ := hrep.htExpand_spec b
    exact ⟨_, hex⟩
  · obtain ⟨hcap, hre⟩ := htExpand_some hex
    rw [hsplit] at hre
    obtain ⟨mid, r, hmid, hlen, hw⟩ := reinsert_split hk front hre
    have hsize : mid.length = (t.capacity * 2#64).toNat :=
      hlen.trans (zeroed (t.capacity * 2#64) t.length : Ht α).sized
    rw [hsize] at hw
    rw [hcap]
    exact ⟨mid, r, hmid, hw⟩

/-- A table with two keys of one home slot. -/
theorem reachable_repOk_two : ∃ (t : Ht Nat) (a : Allocator), Reachable t a ∧ RepOk t ∧
    occupiedSlots t = 2 := by
  have h : ∃ t a, Reachable (α := Nat) t a ∧ t.length = 2#64 :=
    ⟨_, _, .set 4112#64 (some 2) (.set 4096#64 (some 1) (.create (a := generous) rfl) rfl) rfl, rfl⟩
  obtain ⟨t, a, ht, hlen⟩ := h
  obtain ⟨hrep, -⟩ := reachable_repOk ht
  refine ⟨t, a, ht, hrep, ?_⟩
  rw [← hrep.length_eq, hlen]
  rfl

end CamlProbe
