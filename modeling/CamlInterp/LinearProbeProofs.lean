/-! # Linear probing — open addressing over an arbitrary slot type

    A table is a list of slots; `key?` says which key a slot holds, if any.
    A probe starts at a home slot and walks cyclically until it meets an empty
    slot or its own key.  The one invariant is `Placed`: every stored key is
    where its own probe ends.  It makes keys unique, lookup exact, and it is
    kept by writing a key at the end of its probe, which is all that insertion
    and rehashing ever do. -/

namespace LinearProbe

variable {σ κ : Type}

/-- The slot after `i` in a table of `n` slots, wrapping at the end. -/
def next (n i : Nat) : Nat := if n ≤ i + 1 then 0 else i + 1

/-- The key held at index `i`, if the slot exists and is occupied. -/
def keyAt (key? : σ → Option κ) (slots : List σ) (i : Nat) : Option κ :=
  slots[i]?.bind key?

variable {key? : σ → Option κ} {slots : List σ} {k : κ}

/-- A probe for `k` does not move past this slot. -/
def Stops (key? : σ → Option κ) (slots : List σ) (k : κ) (i : Nat) : Prop :=
  ∀ k', keyAt key? slots i = some k' → k' = k

theorem next_eq_mod {n i : Nat} (hi : i < n) : next n i = (i + 1) % n := by
  unfold next
  by_cases h : n ≤ i + 1
  · rw [if_pos h, show i + 1 = n by omega, Nat.mod_self]
  · rw [if_neg h, Nat.mod_eq_of_lt (by omega)]

/-- Cyclic positions compose. -/
private theorem mod_step (n i t : Nat) : ((i + 1) % n + t) % n = (i + (t + 1)) % n := by
  rw [Nat.mod_add_mod]
  congr 1
  omega

/-- Every slot lies on the cyclic walk from every other. -/
private theorem walk_hits {n i j : Nat} (hi : i < n) (hj : j < n) :
    ∃ t, t < n ∧ (i + t) % n = j := by
  by_cases h : i ≤ j
  · exact ⟨j - i, by omega, by rw [show i + (j - i) = j by omega, Nat.mod_eq_of_lt hj]⟩
  · refine ⟨n - i + j, by omega, ?_⟩
    rw [show i + (n - i + j) = j + n by omega, Nat.add_mod_right, Nat.mod_eq_of_lt hj]

theorem keyAt_eq_some {i : Nat} :
    keyAt key? slots i = some k ↔ ∃ s, slots[i]? = some s ∧ key? s = some k := by
  unfold keyAt
  cases slots[i]? with
  | none => simp
  | some s => simp

theorem keyAt_set {i j : Nat} {s : σ} (hj : j < slots.length) :
    keyAt key? (slots.set j s) i = if i = j then key? s else keyAt key? slots i := by
  unfold keyAt
  by_cases h : i = j
  · subst h
    simp [hj]
  · rw [if_neg h, List.getElem?_set_ne (fun hji => h hji.symm)]

/-- A least walk length exists as soon as some slot stops the probe. -/
private theorem first_stop (i : Nat) (t : Nat)
    (h : Stops key? slots k ((i + t) % slots.length)) :
    ∃ t', t' ≤ t ∧ Stops key? slots k ((i + t') % slots.length) ∧
      ∀ u, u < t' → ¬ Stops key? slots k ((i + u) % slots.length) := by
  induction t using Nat.strongRecOn with
  | ind t ih =>
      by_cases hex : ∃ u, u < t ∧ Stops key? slots k ((i + u) % slots.length)
      · obtain ⟨u, hu, hs⟩ := hex
        obtain ⟨t', hle, hs', hw⟩ := ih u hu hs
        exact ⟨t', by omega, hs', hw⟩
      · exact ⟨t, Nat.le_refl t, h, fun u hu hs => hex ⟨u, hu, hs⟩⟩

/-! ## Occupancy -/

/-- The number of occupied slots. -/
def occupied (key? : σ → Option κ) (slots : List σ) : Nat :=
  slots.countP (fun s => (key? s).isSome)

/-- A table with fewer keys than slots has an empty slot. -/
theorem exists_empty (h : occupied key? slots < slots.length) :
    ∃ j, j < slots.length ∧ keyAt key? slots j = none := by
  induction slots with
  | nil => exact absurd h (Nat.not_lt_zero _)
  | cons s rest ih =>
      cases hk : key? s with
      | none => exact ⟨0, Nat.succ_pos _, by simp [keyAt, hk]⟩
      | some k' =>
          have hrest : occupied key? rest < rest.length := by
            unfold occupied at h ⊢
            rw [List.countP_cons_of_pos (by simp [hk]), List.length_cons] at h
            omega
          obtain ⟨j, hj, hn⟩ := ih hrest
          exact ⟨j + 1, Nat.succ_lt_succ hj, by simpa [keyAt] using hn⟩

/-- Writing a key into an empty slot adds one to the occupancy. -/
theorem occupied_set_of_none {j : Nat} {s : σ} (hj : j < slots.length)
    (hn : keyAt key? slots j = none) (hs : key? s = some k) :
    occupied key? (slots.set j s) = occupied key? slots + 1 := by
  induction slots generalizing j with
  | nil => exact absurd hj (Nat.not_lt_zero _)
  | cons s0 rest ih =>
      cases j with
      | zero =>
          have h0 : key? s0 = none := by simpa [keyAt] using hn
          simp [occupied, hs, h0]
      | succ j =>
          have hrest := ih (j := j) (by simpa using hj) (by simpa [keyAt] using hn)
          unfold occupied at hrest ⊢
          rw [List.set_cons_succ, List.countP_cons, List.countP_cons, hrest]
          omega

/-- Overwriting a key by itself keeps the occupancy. -/
theorem occupied_set_of_some {j : Nat} {s : σ}
    (hk : keyAt key? slots j = some k) (hs : key? s = some k) :
    occupied key? (slots.set j s) = occupied key? slots := by
  induction slots generalizing j with
  | nil => rfl
  | cons s0 rest ih =>
      cases j with
      | zero =>
          have h0 : key? s0 = some k := by simpa [keyAt] using hk
          simp [occupied, hs, h0]
      | succ j =>
          have hrest := ih (j := j) (by simpa [keyAt] using hk)
          unfold occupied at hrest ⊢
          rw [List.set_cons_succ, List.countP_cons, List.countP_cons, hrest]

/-! ## Contents -/

/-- The slot `s` with key `k` is somewhere in the table. -/
def Stored (key? : σ → Option κ) (slots : List σ) (k : κ) (s : σ) : Prop :=
  ∃ j : Nat, slots[j]? = some s ∧ key? s = some k

/-- What one insertion of a new key does to the contents. -/
theorem stored_set {j : Nat} {s : σ} (hj : j < slots.length)
    (hn : keyAt key? slots j = none) (hs : key? s = some k) (k' : κ) (s' : σ) :
    Stored key? (slots.set j s) k' s' ↔
      Stored key? slots k' s' ∨ (s' = s ∧ k' = k) := by
  constructor
  · rintro ⟨i, hi, hk⟩
    by_cases hij : i = j
    · subst hij
      rw [List.getElem?_set_self hj] at hi
      have hss : s = s' := Option.some.inj hi
      subst hss
      exact Or.inr ⟨rfl, Option.some.inj (hk.symm.trans hs)⟩
    · rw [List.getElem?_set_ne (fun hji => hij hji.symm)] at hi
      exact Or.inl ⟨i, hi, hk⟩
  · rintro (⟨i, hi, hk⟩ | ⟨rfl, rfl⟩)
    · refine ⟨i, ?_, hk⟩
      have hij : i ≠ j := by
        intro heq
        subst heq
        exact nomatch hn.symm.trans (keyAt_eq_some.mpr ⟨s', hi, hk⟩)
      rw [List.getElem?_set_ne (fun hji => hij hji.symm)]
      exact hi
    · exact ⟨j, List.getElem?_set_self hj, hs⟩

/-- The keys of a table, slot by slot. -/
def keysOf (key? : σ → Option κ) (slots : List σ) : List κ := slots.filterMap key?

theorem mem_keysOf : k ∈ keysOf key? slots ↔ ∃ i, keyAt key? slots i = some k := by
  unfold keysOf
  rw [List.mem_filterMap]
  constructor
  · rintro ⟨s, hs, hk⟩
    obtain ⟨i, hi⟩ := List.mem_iff_getElem?.mp hs
    exact ⟨i, keyAt_eq_some.mpr ⟨s, hi, hk⟩⟩
  · rintro ⟨i, hi⟩
    obtain ⟨s, hs, hk⟩ := keyAt_eq_some.mp hi
    exact ⟨s, List.mem_of_getElem? hs, hk⟩

theorem length_keysOf (slots : List σ) :
    (keysOf key? slots).length = occupied key? slots := by
  unfold keysOf occupied
  exact List.length_filterMap_eq_countP

/-- Writing a key adds it, and no other one, to the keys. -/
theorem mem_keysOf_set {j : Nat} {s : σ} {k' : κ} (hj : j < slots.length)
    (hkey : keyAt key? slots j = none ∨ keyAt key? slots j = some k) (hs : key? s = some k) :
    k' ∈ keysOf key? (slots.set j s) ↔ k' = k ∨ k' ∈ keysOf key? slots := by
  rw [mem_keysOf, mem_keysOf]
  constructor
  · rintro ⟨i, hi⟩
    rw [keyAt_set hj] at hi
    by_cases hij : i = j
    · rw [if_pos hij, hs] at hi
      exact Or.inl (Option.some.inj hi).symm
    · rw [if_neg hij] at hi
      exact Or.inr ⟨i, hi⟩
  · rintro (rfl | ⟨i, hi⟩)
    · exact ⟨j, by rw [keyAt_set hj, if_pos rfl]; exact hs⟩
    · by_cases hij : i = j
      · subst hij
        rcases hkey with hn | hk
        · exact nomatch hn.symm.trans hi
        · exact ⟨i, by rw [keyAt_set hj, if_pos rfl, hs, ← hk]; exact hi⟩
      · exact ⟨i, by rw [keyAt_set hj, if_neg hij]; exact hi⟩

/-! ## Probes -/

variable [DecidableEq κ]

/-- Walk from `i` for at most `fuel` slots; stop at an empty slot or at `k`. -/
def probe (key? : σ → Option κ) (slots : List σ) (k : κ) : Nat → Nat → Option Nat
  | 0, _ => none
  | fuel + 1, i =>
      match keyAt key? slots i with
      | none => some i
      | some k' =>
          if k' = k then some i
          else probe key? slots k fuel (next slots.length i)

theorem probe_of_stops (fuel : Nat) {i : Nat} (h : Stops key? slots k i) :
    probe key? slots k (fuel + 1) i = some i := by
  unfold probe
  cases hk : keyAt key? slots i with
  | none => rfl
  | some k' => simp [h k' hk]

/-- Where a probe does not stop it goes to the next slot. -/
theorem probe_of_not_stops (fuel : Nat) {i : Nat} (h : ¬ Stops key? slots k i) :
    probe key? slots k (fuel + 1) i
      = probe key? slots k fuel (next slots.length i) := by
  conv => lhs; unfold probe
  cases hk : keyAt key? slots i with
  | none => exact absurd (fun k' hk' => nomatch hk.symm.trans hk') h
  | some k' =>
      have hne : k' ≠ k := by
        intro heq
        refine h (fun k'' hk'' => ?_)
        exact (Option.some.inj (hk''.symm.trans hk)).trans heq
      simp [hne]

/-- A probe ends at the first slot of its cyclic walk that stops it. -/
theorem probe_of_first {fuel t i : Nat} (hi : i < slots.length) (ht : t < fuel)
    (hstop : Stops key? slots k ((i + t) % slots.length))
    (hwalk : ∀ u, u < t → ¬ Stops key? slots k ((i + u) % slots.length)) :
    probe key? slots k fuel i = some ((i + t) % slots.length) := by
  induction t generalizing i fuel with
  | zero =>
      obtain ⟨f, rfl⟩ : ∃ f, fuel = f + 1 := ⟨fuel - 1, by omega⟩
      have hi0 : (i + 0) % slots.length = i := Nat.mod_eq_of_lt hi
      rw [hi0] at hstop
      rw [hi0]
      exact probe_of_stops f hstop
  | succ t ih =>
      obtain ⟨f, rfl⟩ : ∃ f, fuel = f + 1 := ⟨fuel - 1, by omega⟩
      have h0 : ¬ Stops key? slots k i := by
        have := hwalk 0 (by omega)
        rwa [Nat.add_zero, Nat.mod_eq_of_lt hi] at this
      rw [probe_of_not_stops f h0, next_eq_mod hi]
      have ht' : t < f := by omega
      rw [← mod_step] at hstop
      rw [← mod_step slots.length i t]
      refine ih (Nat.mod_lt _ (by omega)) ht' hstop ?_
      intro u hu
      rw [mod_step]
      exact hwalk (u + 1) (by omega)

/-- Conversely, a finished probe names the first stopping slot. -/
theorem first_of_probe {fuel i j : Nat} (hi : i < slots.length)
    (h : probe key? slots k fuel i = some j) :
    ∃ t, t < fuel ∧ j = (i + t) % slots.length ∧ Stops key? slots k j ∧
      ∀ u, u < t → ¬ Stops key? slots k ((i + u) % slots.length) := by
  induction fuel generalizing i with
  | zero => exact nomatch h
  | succ fuel ih =>
      by_cases hs : Stops key? slots k i
      · rw [probe_of_stops fuel hs] at h
        have hij : i = j := Option.some.inj h
        subst hij
        refine ⟨0, by omega, ?_, hs, fun u hu => absurd hu (Nat.not_lt_zero u)⟩
        rw [Nat.add_zero, Nat.mod_eq_of_lt hi]
      · rw [probe_of_not_stops fuel hs, next_eq_mod hi] at h
        obtain ⟨t, ht, hj, hstop, hwalk⟩ := ih (Nat.mod_lt _ (by omega)) h
        refine ⟨t + 1, by omega, ?_, hstop, ?_⟩
        · rw [hj, mod_step]
        · intro u hu
          cases u with
          | zero => rwa [Nat.add_zero, Nat.mod_eq_of_lt hi]
          | succ u =>
              rw [← mod_step]
              exact hwalk u (by omega)

/-- **PROBES END**: if some slot stops it, a probe with one unit of fuel per
    slot finishes, inside the table. -/
theorem probe_ends {i j : Nat} (hi : i < slots.length) (hj : j < slots.length)
    (h : Stops key? slots k j) :
    ∃ j', probe key? slots k slots.length i = some j' ∧ j' < slots.length := by
  obtain ⟨t, ht, htj⟩ := walk_hits hi hj
  obtain ⟨t', hle, hs, hw⟩ := first_stop i t (by rw [htj]; exact h)
  exact ⟨_, probe_of_first hi (by omega) hs hw, Nat.mod_lt _ (by omega)⟩

theorem probe_lt {fuel i j : Nat} (hi : i < slots.length)
    (h : probe key? slots k fuel i = some j) : j < slots.length := by
  obtain ⟨t, -, hj, -, -⟩ := first_of_probe hi h
  rw [hj]
  exact Nat.mod_lt _ (by omega)

/-! ## Placement -/

/-- Homes lie in the table, and every stored key is where its probe ends. -/
structure Placed (key? : σ → Option κ) (home : κ → Nat) (slots : List σ) : Prop where
  home_lt : ∀ k, home k < slots.length
  found : ∀ j k, keyAt key? slots j = some k →
    probe key? slots k slots.length (home k) = some j

variable {home : κ → Nat}

/-- No key occupies two slots. -/
theorem Placed.unique (h : Placed key? home slots) {i j : Nat}
    (hi : keyAt key? slots i = some k) (hj : keyAt key? slots j = some k) : i = j :=
  Option.some.inj ((h.found i k hi).symm.trans (h.found j k hj))

/-- Where a finished probe ended there was an empty slot or the key itself. -/
theorem keyAt_of_probe {fuel i j : Nat} (hi : i < slots.length)
    (h : probe key? slots k fuel i = some j) :
    keyAt key? slots j = none ∨ keyAt key? slots j = some k := by
  obtain ⟨t, -, -, hs, -⟩ := first_of_probe hi h
  cases hk : keyAt key? slots j with
  | none => exact Or.inl rfl
  | some k' => exact Or.inr (by rw [hs k' hk])

/-- **INSERTION KEEPS PLACEMENT**: writing `k` where its probe ends leaves
    every key at the end of its own probe. -/
theorem Placed.set (h : Placed key? home slots) {j : Nat} {s : σ}
    (hp : probe key? slots k slots.length (home k) = some j)
    (hs : key? s = some k) : Placed key? home (slots.set j s) := by
  have hj : j < slots.length := probe_lt (h.home_lt k) hp
  have hlen : (slots.set j s).length = slots.length := List.length_set
  refine ⟨fun k' => by rw [hlen]; exact h.home_lt k', ?_⟩
  intro i k' hi
  rw [keyAt_set hj] at hi
  -- the walk of `k'` in the old table, and where it ended
  have hold : probe key? slots k' slots.length (home k') = some i := by
    by_cases hij : i = j
    · rw [if_pos hij, hs] at hi
      rw [← Option.some.inj hi, hij]
      exact hp
    · rw [if_neg hij] at hi
      exact h.found i k' hi
  obtain ⟨t, ht, hit, -, hw⟩ := first_of_probe (h.home_lt k') hold
  rw [hit, ← hlen]
  refine probe_of_first (by rw [hlen]; exact h.home_lt k') (by rw [hlen]; exact ht) ?_ ?_
  · -- the end of the walk holds `k'`
    rw [hlen, ← hit]
    intro k'' hk''
    rw [keyAt_set hj] at hk''
    exact Option.some.inj (hk''.symm.trans hi)
  · -- the slots before it were occupied by other keys and still are
    intro u hu hstop
    rw [hlen] at hstop
    refine hw u hu ?_
    intro k'' hk''
    by_cases huj : (home k' + u) % slots.length = j
    · have hjk : keyAt key? slots j = some k := by
        rcases keyAt_of_probe (h.home_lt k) hp with hn | hsome
        · rw [huj, hn] at hk''
          exact nomatch hk''
        · exact hsome
      rw [huj, hjk] at hk''
      rw [← Option.some.inj hk'']
      refine hstop k ?_
      rw [keyAt_set hj, if_pos huj, hs]
    · refine hstop k'' ?_
      rw [keyAt_set hj, if_neg huj]
      exact hk''

/-- A table of empty slots is placed. -/
theorem Placed.of_empty (hhome : ∀ k, home k < slots.length)
    (hempty : ∀ j, keyAt key? slots j = none) : Placed key? home slots := by
  refine ⟨hhome, ?_⟩
  intro j k hj
  rw [hempty j] at hj
  exact nomatch hj

/-- With a free slot left, the probe of every key ends. -/
theorem Placed.probe_some (h : Placed key? home slots)
    (hfree : occupied key? slots < slots.length) (k : κ) :
    ∃ j, probe key? slots k slots.length (home k) = some j ∧ j < slots.length := by
  obtain ⟨j, hj, hn⟩ := exists_empty hfree
  exact probe_ends (h.home_lt k) hj (fun k' hk' => nomatch hn.symm.trans hk')

/-! ## Lookup -/

/-- The slot a finished probe for `k` found, when it holds `k`. -/
def lookup (key? : σ → Option κ) (slots : List σ) (k : κ) (start : Nat) : Option σ :=
  match probe key? slots k slots.length start with
  | none => none
  | some j => if keyAt key? slots j = some k then slots[j]? else none

/-- **LOOKUP IS EXACT**: it returns precisely the stored slot with that key. -/
theorem Placed.lookup_eq_some (h : Placed key? home slots) {s : σ} :
    lookup key? slots k (home k) = some s ↔
      ∃ j : Nat, slots[j]? = some s ∧ key? s = some k := by
  unfold lookup
  constructor
  · intro hl
    cases hp : probe key? slots k slots.length (home k) with
    | none => rw [hp] at hl; exact nomatch hl
    | some j =>
        rw [hp] at hl
        by_cases hk : keyAt key? slots j = some k
        · simp only [if_pos hk] at hl
          obtain ⟨s', hs', hk'⟩ := keyAt_eq_some.mp hk
          have : s' = s := Option.some.inj (hs'.symm.trans hl)
          subst this
          exact ⟨j, hs', hk'⟩
        · simp only [if_neg hk] at hl
          exact nomatch hl
  · rintro ⟨j, hj, hk⟩
    have hkey := keyAt_eq_some.mpr ⟨s, hj, hk⟩
    rw [h.found j k hkey]
    simp only [if_pos hkey]
    exact hj

/-- Insertion is found again. -/
theorem Placed.lookup_set_self (h : Placed key? home slots) {j : Nat} {s : σ}
    (hp : probe key? slots k slots.length (home k) = some j)
    (hs : key? s = some k) : lookup key? (slots.set j s) k (home k) = some s :=
  ((h.set hp hs).lookup_eq_some).mpr
    ⟨j, by simp [probe_lt (h.home_lt k) hp], hs⟩

/-- Insertion of `k` leaves the lookup of every other key as it was. -/
theorem Placed.lookup_set_of_ne (h : Placed key? home slots) {j : Nat} {s : σ} {k' : κ}
    (hp : probe key? slots k slots.length (home k) = some j)
    (hs : key? s = some k) (hne : k' ≠ k) :
    lookup key? (slots.set j s) k' (home k') = lookup key? slots k' (home k') := by
  have hj : j < slots.length := probe_lt (h.home_lt k) hp
  apply Option.ext
  intro s'
  rw [(h.set hp hs).lookup_eq_some, h.lookup_eq_some]
  constructor
  · rintro ⟨i, hi, hk⟩
    refine ⟨i, ?_, hk⟩
    by_cases hij : i = j
    · subst hij
      simp only [List.getElem?_set_self hj, Option.some.injEq] at hi
      rw [← hi, hs] at hk
      exact absurd (Option.some.inj hk).symm hne
    · rwa [List.getElem?_set_ne (fun hji => hij hji.symm)] at hi
  · rintro ⟨i, hi, hk⟩
    refine ⟨i, ?_, hk⟩
    by_cases hij : i = j
    · exfalso
      subst hij
      have hki := keyAt_eq_some.mpr ⟨s', hi, hk⟩
      rcases keyAt_of_probe (h.home_lt k) hp with hn | hsome
      · rw [hn] at hki
        exact nomatch hki
      · exact hne (Option.some.inj (hki.symm.trans hsome))
    · rwa [List.getElem?_set_ne (fun hji => hij hji.symm)]

/-! ## Moving a table

    Growing a table inserts the occupied slots of the old one, in slot order,
    into an empty one.  What matters of the old table is only that its keys are
    distinct. -/

/-- Distinct slots hold distinct keys. -/
def Distinct (key? : σ → Option κ) (old : List σ) : Prop :=
  old.Pairwise (fun a b => ∀ k, key? a = some k → key? b ≠ some k)

omit [DecidableEq κ] in
/-- No key is there twice. -/
theorem Distinct.nodup_keysOf (h : Distinct key? slots) : (keysOf key? slots).Nodup := by
  unfold Distinct at h
  induction slots with
  | nil => exact List.nodup_nil
  | cons s rest ih =>
      obtain ⟨hs, hrest⟩ := List.pairwise_cons.mp h
      unfold keysOf
      cases hk : key? s with
      | none =>
          rw [List.filterMap_cons_none hk]
          exact ih hrest
      | some k =>
          rw [List.filterMap_cons_some hk]
          refine List.nodup_cons.mpr ⟨fun hmem => ?_, ih hrest⟩
          obtain ⟨s', hs', hk'⟩ := List.mem_filterMap.mp hmem
          exact hs s' hs' k hk hk'

/-- A placed table has distinct keys. -/
theorem Placed.distinct (h : Placed key? home slots) : Distinct key? slots := by
  unfold Distinct
  rw [List.pairwise_iff_getElem]
  intro i j hi hj hij k hki hkj
  have h1 : keyAt key? slots i = some k :=
    keyAt_eq_some.mpr ⟨slots[i], List.getElem?_eq_getElem hi, hki⟩
  have h2 : keyAt key? slots j = some k :=
    keyAt_eq_some.mpr ⟨slots[j], List.getElem?_eq_getElem hj, hkj⟩
  exact absurd (h.unique h1 h2) (Nat.ne_of_lt hij)

/-- Write each occupied slot of `old` where its probe ends. -/
def insertAll (key? : σ → Option κ) (home : κ → Nat) : List σ → List σ → Option (List σ)
  | [], slots => some slots
  | s :: rest, slots =>
      match key? s with
      | none => insertAll key? home rest slots
      | some k =>
          match probe key? slots k slots.length (home k) with
          | none => none
          | some j => insertAll key? home rest (slots.set j s)

/-- **MOVING LOSES NOTHING**: into a placed table with room, inserting slots
    with distinct keys not yet there succeeds, keeps placement, and stores
    exactly the old contents and the inserted slots. -/
theorem insertAll_spec {old : List σ} (hd : Distinct key? old) (h : Placed key? home slots)
    (hroom : occupied key? slots + occupied key? old < slots.length)
    (hnew : ∀ k s, s ∈ old → key? s = some k → ∀ i, keyAt key? slots i ≠ some k) :
    ∃ slots', insertAll key? home old slots = some slots' ∧
      slots'.length = slots.length ∧ Placed key? home slots' ∧
      occupied key? slots' = occupied key? slots + occupied key? old ∧
      ∀ k s, Stored key? slots' k s ↔
        Stored key? slots k s ∨ (s ∈ old ∧ key? s = some k) := by
  induction old generalizing slots with
  | nil => exact ⟨slots, rfl, rfl, h, rfl, fun k s => by simp⟩
  | cons s0 rest ih =>
      obtain ⟨hd0, hdr⟩ := List.pairwise_cons.mp hd
      cases hk0 : key? s0 with
      | none =>
          have hocc : occupied key? (s0 :: rest) = occupied key? rest := by
            simp [occupied, hk0]
          rw [hocc] at hroom
          obtain ⟨slots', he, hl, hp, ho, hst⟩ := ih hdr h hroom
            (fun k s hs => hnew k s (List.mem_cons_of_mem _ hs))
          refine ⟨slots', by simp only [insertAll, hk0]; exact he, hl, hp, by rw [hocc]; exact ho, ?_⟩
          intro k s
          rw [hst k s, List.mem_cons]
          constructor
          · rintro (hs | ⟨hm, hk⟩)
            · exact Or.inl hs
            · exact Or.inr ⟨Or.inr hm, hk⟩
          · rintro (hs | ⟨rfl | hm, hk⟩)
            · exact Or.inl hs
            · exact nomatch hk0.symm.trans hk
            · exact Or.inr ⟨hm, hk⟩
      | some k0 =>
          have hocc : occupied key? (s0 :: rest) = occupied key? rest + 1 := by
            simp [occupied, hk0]
          rw [hocc] at hroom
          obtain ⟨j, hp0, hj⟩ := h.probe_some (by omega) k0
          have hn : keyAt key? slots j = none := by
            rcases keyAt_of_probe (h.home_lt k0) hp0 with hn | hsome
            · exact hn
            · exact absurd hsome (hnew k0 s0 List.mem_cons_self hk0 j)
          have hlen : (slots.set j s0).length = slots.length := List.length_set
          have hset := occupied_set_of_none hj hn hk0
          have hnew' : ∀ k s, s ∈ rest → key? s = some k →
              ∀ i, keyAt key? (slots.set j s0) i ≠ some k := by
            intro k s hs hk i hi
            rw [keyAt_set hj] at hi
            by_cases hij : i = j
            · rw [if_pos hij] at hi
              exact hd0 s hs k hi hk
            · rw [if_neg hij] at hi
              exact hnew k s (List.mem_cons_of_mem _ hs) hk i hi
          obtain ⟨slots', he, hl, hp, ho, hst⟩ := ih hdr (h.set hp0 hk0)
            (by rw [hset, hlen]; omega) hnew'
          refine ⟨slots', by simp only [insertAll, hk0, hp0]; exact he, hl.trans hlen, hp,
            by rw [ho, hset, hocc]; omega, ?_⟩
          intro k s
          rw [hst k s, stored_set hj hn hk0, List.mem_cons]
          constructor
          · rintro ((hs | ⟨rfl, rfl⟩) | ⟨hm, hk⟩)
            · exact Or.inl hs
            · exact Or.inr ⟨Or.inl rfl, hk0⟩
            · exact Or.inr ⟨Or.inr hm, hk⟩
          · rintro (hs | ⟨rfl | hm, hk⟩)
            · exact Or.inl (Or.inl hs)
            · exact Or.inl (Or.inr ⟨rfl, Option.some.inj (hk.symm.trans hk0)⟩)
            · exact Or.inr ⟨hm, hk⟩

end LinearProbe
