import CamlInterp.LinearProbeProofs
import CamlInterp.ValueProofs

/-! # The hash table

    `ht` of `interp.c`: open addressing on pointer-sized keys, NULL keys mark
    free slots, the table doubles when it is half full.  The values are
    pointers, `none` being NULL.  `Represents t m` says that the table is in
    order and is the finite map `m`; `ht_get` reads that map and `ht_set`
    updates it at one key, also when it has to move every entry. -/

namespace CamlHashTable

open CamlValue LinearProbe

/-! ## The C allocator -/

/-- `malloc` and `calloc`: the outcome of the `n`-th request may depend on
    anything; `failed` remembers that some request was refused. -/
structure Allocator where
  grants : Nat → Nat → Bool
  requests : Nat
  failed : Bool

/-- Ask for a number of bytes.  What does not fit `size_t` is always refused. -/
def Allocator.request (a : Allocator) (bytes : Nat) : Bool × Allocator :=
  let ok := decide (bytes < 2 ^ 64) && a.grants a.requests bytes
  (ok, { a with requests := a.requests + 1, failed := a.failed || !ok })

/-- When nothing has failed so far, the last request was granted. -/
theorem Allocator.request_of_not_failed {a : Allocator} {bytes : Nat}
    (h : (a.request bytes).2.failed = false) :
    a.failed = false ∧ (a.request bytes).1 = true ∧ bytes < 2 ^ 64 := by
  simp only [request, Bool.or_eq_false_iff, Bool.not_eq_false'] at h ⊢
  obtain ⟨hf, hok⟩ := h
  refine ⟨hf, hok, ?_⟩
  rw [Bool.and_eq_true, decide_eq_true_iff] at hok
  exact hok.1

/-! ## The table -/

/-- `ht_entry`. -/
structure HtEntry (α : Type) where
  key : CodePtr
  value : Option α

/-- A slot as `calloc` leaves it. -/
def HtEntry.empty {α : Type} : HtEntry α := ⟨nullCode, none⟩

/-- `ht`; the array has `capacity` slots. -/
structure Ht (α : Type) where
  entries : List (HtEntry α)
  capacity : BitVec 64
  length : BitVec 64
  sized : entries.length = capacity.toNat

variable {α : Type}

/-- `sizeof(ht_entry)` and `sizeof(ht)`. -/
def sizeofEntry : Nat := 16
def sizeofHt : Nat := 24

/-- `calloc(capacity, sizeof(ht_entry))`, when it succeeds. -/
def zeroed (capacity : BitVec 64) (length : BitVec 64) : Ht α where
  entries := List.replicate capacity.toNat HtEntry.empty
  capacity := capacity
  length := length
  sized := List.length_replicate

/-- `ht_create`, with `CAPACITY` slots; `none` is NULL. -/
def htCreate (a : Allocator) : Option (Ht α) × Allocator :=
  let (ok, a) := a.request sizeofHt
  if ok then
    let (ok, a) := a.request (16 * sizeofEntry)
    if ok then (some (zeroed 16#64 0#64), a) else (none, a)
  else (none, a)

/-- `hash_key`. -/
def hashKey (key : CodePtr) : BitVec 64 :=
  let hash := key
  let n := hash
  let n := n <<< 18
  let hash := hash - n
  let n := n <<< 33
  let hash := hash - n
  let n := n <<< 3
  let hash := hash + n
  let n := n <<< 3
  let hash := hash - n
  let n := n <<< 4
  let hash := hash + n
  let n := n <<< 2
  hash + n

/-- `hash & (capacity - 1)`. -/
def slotOf (capacity : BitVec 64) (key : CodePtr) : BitVec 64 :=
  hashKey key &&& (capacity - 1#64)

/-- The loop of `ht_get` and `ht_set_entry`: walk until a free slot or `key`.
    Nothing changes while it walks, so a walk longer than the table never
    ends. -/
def walk (entries : List (HtEntry α)) (capacity : BitVec 64) (key : CodePtr) :
    Nat → BitVec 64 → C (BitVec 64 × HtEntry α)
  | 0, _ => .error .diverged
  | fuel + 1, index => do
      let e ← orUndefined entries[index.toNat]?
      if e.key ≠ nullCode then
        if key = e.key then .ok (index, e)
        else
          let index := index + 1#64
          walk entries capacity key fuel (if capacity ≤ index then 0#64 else index)
      else .ok (index, e)

/-- `ht_get`. -/
def htGet (t : Ht α) (key : CodePtr) : C (Option α) := do
  let (_, e) ← walk t.entries t.capacity key t.entries.length (slotOf t.capacity key)
  if e.key ≠ nullCode then .ok e.value else .ok none

/-- `ht_set_entry`: the array it leaves, and whether it took a free slot and so
    adds one to `*plength`. -/
def htSetEntry (entries : List (HtEntry α)) (capacity : BitVec 64) (key : CodePtr)
    (value : Option α) : C (List (HtEntry α) × Bool) := do
  if key = nullCode then .error .exited
  else
    let (index, e) ← walk entries capacity key entries.length (slotOf capacity key)
    .ok (entries.set index.toNat ⟨key, value⟩, decide (e.key = nullCode))

theorem length_of_htSetEntry {entries entries' : List (HtEntry α)} {capacity : BitVec 64}
    {key : CodePtr} {value : Option α} {new : Bool}
    (h : htSetEntry entries capacity key value = .ok (entries', new)) :
    entries'.length = entries.length := by
  unfold htSetEntry at h
  by_cases hk : key = nullCode
  · rw [if_pos hk] at h
    exact nomatch h
  · rw [if_neg hk] at h
    obtain ⟨⟨index, e⟩, -, hw⟩ := bind_eq_ok.mp h
    rw [← (Prod.mk.inj (Except.ok.inj hw)).1, List.length_set]

/-- The loop of `ht_expand`: set every occupied old entry in the new array. -/
def reinsert (capacity : BitVec 64) :
    List (HtEntry α) → List (HtEntry α) → C (List (HtEntry α))
  | [], entries => .ok entries
  | e :: rest, entries => do
      if e.key ≠ nullCode then
        let (entries, _) ← htSetEntry entries capacity e.key e.value
        reinsert capacity rest entries
      else reinsert capacity rest entries

/-- Reinsertion keeps the number of slots. -/
theorem length_of_reinsert {capacity : BitVec 64} {old entries entries' : List (HtEntry α)}
    (h : reinsert capacity old entries = .ok entries') :
    entries'.length = entries.length := by
  induction old generalizing entries with
  | nil => rw [Except.ok.inj h]
  | cons e rest ih =>
      unfold reinsert at h
      by_cases hk : e.key ≠ nullCode
      · rw [if_pos hk] at h
        obtain ⟨⟨mid, new⟩, hset, hrest⟩ := bind_eq_ok.mp h
        rw [ih hrest, length_of_htSetEntry hset]
      · rw [if_neg hk] at h
        exact ih h

/-- `ht_expand`; `none` when the capacity overflows or `calloc` fails. -/
def htExpand (a : Allocator) (t : Ht α) : C (Option (Ht α) × Allocator) :=
  let newCapacity := t.capacity * 2#64
  if newCapacity < t.capacity then .ok (none, a)
  else
    let (ok, a) := a.request (newCapacity.toNat * sizeofEntry)
    if ok then
      match h : reinsert newCapacity t.entries
          (zeroed newCapacity t.length : Ht α).entries with
      | .error e => .error e
      | .ok entries =>
          .ok (some ⟨entries, newCapacity, t.length,
            (length_of_reinsert h).trans (zeroed newCapacity t.length).sized⟩, a)
    else .ok (none, a)

/-- The call of `ht_set_entry` that ends `ht_set`. -/
def setInPlace (t : Ht α) (key : CodePtr) (value : Option α) : C (Ht α) :=
  match h : htSetEntry t.entries t.capacity key value with
  | .error e => .error e
  | .ok (entries, new) =>
      .ok ⟨entries, t.capacity, if new then t.length + 1#64 else t.length,
        (length_of_htSetEntry h).trans t.sized⟩

/-- `ht_set`: the key it returns, NULL when the table could not grow. -/
def htSet (a : Allocator) (t : Ht α) (key : CodePtr) (value : Option α) :
    C (CodePtr × Ht α × Allocator) := do
  if value.isNone then .error .assertFailed
  else if key = nullCode then .error .exited
  else if t.capacity / 2#64 ≤ t.length then
    match ← htExpand a t with
    | (none, a) => .ok (nullCode, t, a)
    | (some t, a) => .ok (key, ← setInPlace t key value, a)
  else .ok (key, ← setInPlace t key value, a)

def htLength (t : Ht α) : BitVec 64 := t.length

/-! ## The walk is a linear probe -/

/-- The key a slot holds; NULL marks a free one. -/
def entryKey (e : HtEntry α) : Option CodePtr :=
  if e.key = nullCode then none else some e.key

/-- Where the walk for a key starts. -/
def homeOf (capacity : BitVec 64) (key : CodePtr) : Nat := (slotOf capacity key).toNat

theorem homeOf_lt {capacity : BitVec 64} (h : 0 < capacity.toNat) (key : CodePtr) :
    homeOf capacity key < capacity.toNat := by
  have hle : (hashKey key &&& (capacity - 1#64)).toNat ≤ (capacity - 1#64).toNat := by
    rw [BitVec.toNat_and]
    exact Nat.and_le_right
  have hsub : (capacity - 1#64).toNat = capacity.toNat - 1 := by bv_omega
  unfold homeOf slotOf
  omega

variable {entries : List (HtEntry α)} {capacity : BitVec 64} {key : CodePtr}

theorem entryKey_eq_none {e : HtEntry α} : entryKey e = none ↔ e.key = nullCode := by
  unfold entryKey
  by_cases h : e.key = nullCode
  · simp [h]
  · simp [h]

/-- The key of a slot in use. -/
theorem entryKey_eq_some {e : HtEntry α} :
    entryKey e = some key ↔ e.key = key ∧ key ≠ nullCode := by
  unfold entryKey
  by_cases h : e.key = nullCode
  · simp only [h, if_true]
    constructor
    · intro hk; exact nomatch hk
    · rintro ⟨rfl, hk⟩; exact absurd rfl hk
  · rw [if_neg h, Option.some.injEq]
    constructor
    · intro hk; exact ⟨hk, hk ▸ h⟩
    · exact fun hk => hk.1

/-- The C loop and the library's probe take the same way. -/
theorem walk_of_probe (hlen : entries.length = capacity.toNat) {fuel j : Nat}
    {index : BitVec 64} (hi : index.toNat < capacity.toNat)
    (hp : probe entryKey entries key fuel index.toNat = some j) :
    ∃ e, entries[j]? = some e ∧
      walk entries capacity key fuel index = .ok (BitVec.ofNat 64 j, e) := by
  induction fuel generalizing index with
  | zero => exact nomatch hp
  | succ fuel ih =>
      have hget : entries[index.toNat]? = some (entries[index.toNat]) :=
        List.getElem?_eq_getElem (by omega)
      generalize entries[index.toNat] = e at hget
      have hstay : some index.toNat = some j → ∃ e', entries[j]? = some e' ∧
          (.ok (index, e) : C _) = .ok (BitVec.ofNat 64 j, e') := by
        intro h
        rw [← Option.some.inj h]
        exact ⟨e, hget, by rw [BitVec.ofNat_toNat, BitVec.setWidth_eq]⟩
      unfold probe keyAt at hp
      unfold walk
      simp only [hget, orUndefined, bind, Except.bind, Option.bind_some] at hp ⊢
      by_cases hnull : e.key = nullCode
      · rw [entryKey_eq_none.mpr hnull] at hp
        rw [if_neg (fun hk => hk hnull)]
        exact hstay hp
      · rw [entryKey_eq_some.mpr ⟨rfl, hnull⟩] at hp
        rw [if_pos hnull]
        by_cases hk : e.key = key
        · rw [if_pos hk.symm]
          simp only [if_pos hk] at hp
          exact hstay hp
        · rw [if_neg (fun h => hk h.symm)]
          simp only [if_neg hk] at hp
          -- the two ways of wrapping at the end agree
          have hnext : (if capacity ≤ index + 1#64 then 0#64 else index + 1#64).toNat
              = next entries.length index.toNat := by
            unfold next
            have hsucc : (index + 1#64).toNat = index.toNat + 1 := by bv_omega
            by_cases hw : capacity.toNat ≤ index.toNat + 1
            · rw [if_pos (by rw [BitVec.le_def, hsucc]; exact hw), if_pos (by omega)]
              rfl
            · rw [if_neg (by rw [BitVec.le_def, hsucc]; exact hw), if_neg (by omega), hsucc]
          rw [← hnext] at hp
          refine ih ?_ hp
          rw [hnext]
          unfold next
          split <;> omega

/-! ## The table as a finite map -/

/-- The value bound to a key, if any. -/
def Ht.find (t : Ht α) (key : CodePtr) : Option α :=
  (lookup entryKey t.entries key (homeOf t.capacity key)).bind HtEntry.value

/-- The keys in the table. -/
def Ht.keys (t : Ht α) : List CodePtr := keysOf entryKey t.entries

/-- The table is in order: every key can be found, the length is right, at
    least half of the slots are free, and the array has a size in bytes. -/
structure Ht.WellFormed (t : Ht α) : Prop where
  placed : Placed entryKey (homeOf t.capacity) t.entries
  count : t.length.toNat = occupied entryKey t.entries
  half : occupied entryKey t.entries ≤ t.capacity.toNat / 2
  base : 16 ≤ t.capacity.toNat
  fits : t.capacity.toNat * sizeofEntry < 2 ^ 64

/-- The table is in order and is the map `m`. -/
structure Represents (t : Ht α) (m : CodePtr → Option α) : Prop extends t.WellFormed where
  find_eq : ∀ k, t.find k = m k

variable {t : Ht α} {m : CodePtr → Option α} {a : Allocator}

/-- An array of free slots. -/
theorem placed_zeroed (hc : 0 < capacity.toNat) (length : BitVec 64) :
    Placed entryKey (homeOf capacity) (zeroed capacity length : Ht α).entries := by
  refine Placed.of_empty (fun k => ?_) (fun j => ?_)
  · rw [(zeroed capacity length : Ht α).sized]
    exact homeOf_lt hc k
  · unfold keyAt zeroed
    rw [List.getElem?_replicate]
    split <;> rfl

theorem occupied_zeroed (capacity length : BitVec 64) :
    occupied entryKey (zeroed capacity length : Ht α).entries = 0 := by
  unfold occupied zeroed
  rw [List.countP_eq_zero]
  intro e he
  rw [List.eq_of_mem_replicate he]
  simp [HtEntry.empty, entryKey]

/-- What is found is what some slot holds. -/
theorem find_eq_some (h : Placed entryKey (homeOf t.capacity) t.entries) {k : CodePtr}
    {v : α} : t.find k = some v ↔
      ∃ e, Stored entryKey t.entries k e ∧ e.value = some v := by
  unfold Ht.find
  rw [Option.bind_eq_some_iff]
  constructor
  · rintro ⟨e, hl, hv⟩
    exact ⟨e, h.lookup_eq_some.mp hl, hv⟩
  · rintro ⟨e, hs, hv⟩
    exact ⟨e, h.lookup_eq_some.mpr hs, hv⟩

theorem not_stored_zeroed (capacity length : BitVec 64) (k : CodePtr) (e : HtEntry α) :
    ¬ Stored entryKey (zeroed capacity length : Ht α).entries k e := by
  rintro ⟨j, hj, hk⟩
  rw [List.eq_of_mem_replicate (List.mem_of_getElem? hj), HtEntry.empty,
    entryKey_eq_some] at hk
  exact hk.2 hk.1.symm

/-- A table without entries is the empty map. -/
theorem represents_zeroed (hbase : 16 ≤ capacity.toNat)
    (hfits : capacity.toNat * sizeofEntry < 2 ^ 64) :
    Represents (zeroed capacity 0#64 : Ht α) (fun _ => none) := by
  have hp : Placed entryKey (homeOf capacity) (zeroed capacity 0#64 : Ht α).entries :=
    placed_zeroed (by omega) 0#64
  refine ⟨⟨hp, ?_, ?_, hbase, hfits⟩, fun k => ?_⟩
  · rw [occupied_zeroed]
    rfl
  · rw [occupied_zeroed]
    exact Nat.zero_le _
  · rw [Option.eq_none_iff_forall_ne_some]
    intro v hv
    obtain ⟨e, hs, -⟩ := (find_eq_some (t := zeroed capacity 0#64) hp).mp hv
    exact not_stored_zeroed capacity 0#64 k e hs

/-- What `ht_create` makes is the empty map. -/
theorem represents_htCreate {a' : Allocator} (h : htCreate a = (some t, a')) :
    Represents t (fun _ => none) ∧ t.keys = [] := by
  have ht : t = zeroed 16#64 0#64 := by
    unfold htCreate at h
    simp only at h
    split at h
    · split at h
      · exact (Option.some.inj (Prod.mk.inj h).1).symm
      · exact nomatch (Prod.mk.inj h).1
    · exact nomatch (Prod.mk.inj h).1
  subst ht
  exact ⟨represents_zeroed (by decide) (by decide), rfl⟩

/-- `ht_create` makes a table, unless an allocation failed. -/
theorem htCreate_spec (h : (htCreate a : Option (Ht α) × Allocator).2.failed = false) :
    ∃ t : Ht α, (htCreate a).1 = some t ∧ Represents t (fun _ => none) := by
  have hsome : ∃ t : Ht α, (htCreate a).1 = some t := by
    unfold htCreate at h ⊢
    simp only at h ⊢
    by_cases h1 : (a.request sizeofHt).1 = true
    · rw [if_pos h1] at h ⊢
      by_cases h2 : ((a.request sizeofHt).2.request (16 * sizeofEntry)).1 = true
      · rw [if_pos h2]
        exact ⟨_, rfl⟩
      · rw [if_neg h2] at h
        exact absurd (Allocator.request_of_not_failed h).2.1 h2
    · rw [if_neg h1] at h
      exact absurd (Allocator.request_of_not_failed h).2.1 h1
  obtain ⟨t, ht⟩ := hsome
  exact ⟨t, ht, (represents_htCreate (Prod.ext ht rfl)).1⟩

/-- The probe of any key ends in a table that is in order. -/
theorem Ht.WellFormed.probe_ends (h : t.WellFormed) (k : CodePtr) :
    ∃ j, probe entryKey t.entries k t.entries.length (homeOf t.capacity k) = some j ∧
      j < t.entries.length := by
  have hhalf := h.half
  have hbase := h.base
  have hsized := t.sized
  exact h.placed.probe_some (by omega) k

/-- **`ht_get`** reads the map; in particular its loop ends. -/
theorem Represents.htGet_eq (h : Represents t m) (k : CodePtr) : htGet t k = .ok (m k) := by
  obtain ⟨j, hp, -⟩ := h.probe_ends k
  obtain ⟨e, he, hw⟩ := walk_of_probe t.sized
    (homeOf_lt (by have := h.base; omega) k) hp
  have hw' : walk t.entries t.capacity k t.entries.length (slotOf t.capacity k)
      = .ok (BitVec.ofNat 64 j, e) := hw
  have hkey : keyAt entryKey t.entries j = entryKey e := by rw [keyAt, he]; rfl
  rw [← h.find_eq k]
  unfold htGet Ht.find lookup
  rw [hw', hp]
  simp only [bind, Except.bind, hkey]
  by_cases hnull : e.key = nullCode
  · rw [if_neg (fun hne => hne hnull), entryKey_eq_none.mpr hnull]
    rfl
  · have hk : entryKey e = some k := by
      rcases keyAt_of_probe (h.placed.home_lt k) hp with hn | hs
      · rw [hkey] at hn
        exact absurd (entryKey_eq_none.mp hn) hnull
      · rw [← hkey]
        exact hs
    rw [if_pos hnull, if_pos hk, he]
    rfl

/-- One write of `ht_set_entry`, in terms of the probe. -/
theorem htSetEntry_eq (hlen : entries.length = capacity.toNat) (hc : 0 < capacity.toNat)
    (hk : key ≠ nullCode) {j : Nat}
    (hp : probe entryKey entries key entries.length (homeOf capacity key) = some j)
    (value : Option α) :
    htSetEntry entries capacity key value
      = .ok (entries.set j ⟨key, value⟩, decide (keyAt entryKey entries j = none)) := by
  obtain ⟨e, he, hw⟩ := walk_of_probe hlen (homeOf_lt hc key) hp
  have hw' : walk entries capacity key entries.length (slotOf capacity key)
      = .ok (BitVec.ofNat 64 j, e) := hw
  have hj : j < entries.length := by
    refine probe_lt ?_ hp
    rw [hlen]
    exact homeOf_lt hc key
  have hjj : (BitVec.ofNat 64 j).toNat = j := by
    rw [BitVec.toNat_ofNat, Nat.mod_eq_of_lt]
    have := capacity.isLt
    omega
  have hnew : decide (e.key = nullCode) = decide (keyAt entryKey entries j = none) := by
    rw [decide_eq_decide, keyAt, he]
    exact entryKey_eq_none.symm
  unfold htSetEntry
  rw [if_neg hk, hw']
  simp only [bind, Except.bind, hjj, hnew]

/-- The map with one binding replaced. -/
def update (m : CodePtr → Option α) (k : CodePtr) (v : α) : CodePtr → Option α :=
  fun k' => if k' = k then some v else m k'

/-- `ht_set_entry` on a table with room to spare updates the map. -/
theorem Represents.setInPlace_spec (h : Represents t m) (hk : key ≠ nullCode)
    (hroom : occupied entryKey t.entries < t.capacity.toNat / 2) (v : α) :
    ∃ t', setInPlace t key (some v) = .ok t' ∧ Represents t' (update m key v) ∧
      ∀ k, k ∈ t'.keys ↔ k = key ∨ k ∈ t.keys := by
  obtain ⟨j, hp, hj⟩ := h.probe_ends key
  have hbase := h.base
  have hset := htSetEntry_eq t.sized (by omega) hk hp (some v)
  have hkey : entryKey (⟨key, some v⟩ : HtEntry α) = some key :=
    entryKey_eq_some.mpr ⟨rfl, hk⟩
  unfold setInPlace
  split
  · rename_i e he
    exact nomatch he.symm.trans hset
  · rename_i entries' new he
    obtain ⟨rfl, rfl⟩ := Prod.mk.inj (Except.ok.inj (he.symm.trans hset))
    refine ⟨_, rfl, ⟨⟨h.placed.set hp hkey, ?_, ?_, hbase, h.fits⟩, fun k' => ?_⟩,
      fun k' => mem_keysOf_set hj (keyAt_of_probe (h.placed.home_lt key) hp) hkey⟩
    · show (if decide (keyAt entryKey t.entries j = none) then t.length + 1#64
          else t.length).toNat = occupied entryKey (t.entries.set j ⟨key, some v⟩)
      have hcount := h.count
      have hlen := t.length.isLt
      have hcap := t.capacity.isLt
      rcases keyAt_of_probe (h.placed.home_lt key) hp with hn | hs
      · rw [decide_eq_true hn, if_pos rfl, occupied_set_of_none hj hn hkey, ← hcount]
        bv_omega
      · rw [decide_eq_false (by rw [hs]; exact Option.some_ne_none key),
          occupied_set_of_some hs hkey, ← hcount]
        rfl
    · show occupied entryKey (t.entries.set j ⟨key, some v⟩) ≤ t.capacity.toNat / 2
      rcases keyAt_of_probe (h.placed.home_lt key) hp with hn | hs
      · rw [occupied_set_of_none hj hn hkey]
        exact hroom
      · rw [occupied_set_of_some hs hkey]
        exact h.half
    · unfold update
      by_cases hkk : k' = key
      · subst hkk
        rw [if_pos rfl]
        show (lookup entryKey (t.entries.set j ⟨k', some v⟩) k' (homeOf t.capacity k')).bind
          HtEntry.value = some v
        rw [h.placed.lookup_set_self hp hkey]
        rfl
      · rw [if_neg hkk, ← h.find_eq k']
        show (lookup entryKey (t.entries.set j ⟨key, some v⟩) k' (homeOf t.capacity k')).bind
          HtEntry.value = _
        rw [h.placed.lookup_set_of_ne hp hkey hkk]
        rfl

/-- The loop of `ht_expand` inserts what the library's `insertAll` inserts. -/
theorem reinsert_of_insertAll {old entries' : List (HtEntry α)}
    (hlen : entries.length = capacity.toNat) (hc : 0 < capacity.toNat)
    (h : insertAll entryKey (homeOf capacity) old entries = some entries') :
    reinsert capacity old entries = .ok entries' := by
  induction old generalizing entries with
  | nil => rw [reinsert, Option.some.inj h]
  | cons e rest ih =>
      unfold insertAll at h
      unfold reinsert
      by_cases hnull : e.key = nullCode
      · rw [entryKey_eq_none.mpr hnull] at h
        rw [if_neg (fun hne => hne hnull)]
        exact ih hlen h
      · rw [entryKey_eq_some.mpr ⟨rfl, hnull⟩] at h
        rw [if_pos hnull]
        cases hp : probe entryKey entries e.key entries.length (homeOf capacity e.key) with
        | none => simp only [hp] at h; cases h
        | some j =>
            simp only [hp] at h
            rw [htSetEntry_eq hlen hc hnull hp]
            exact ih (by rw [List.length_set]; exact hlen) h

theorem mem_keys {k : CodePtr} : k ∈ t.keys ↔ ∃ e, Stored entryKey t.entries k e := by
  unfold Ht.keys
  rw [mem_keysOf]
  constructor
  · rintro ⟨i, hi⟩
    obtain ⟨e, he, hk⟩ := keyAt_eq_some.mp hi
    exact ⟨e, i, he, hk⟩
  · rintro ⟨e, i, he, hk⟩
    exact ⟨i, keyAt_eq_some.mpr ⟨e, he, hk⟩⟩

/-- A table that stores the same slots is the same map. -/
theorem Represents.of_stored (h : Represents t m) {t' : Ht α} (hwf : t'.WellFormed)
    (hs : ∀ k e, Stored entryKey t'.entries k e ↔ Stored entryKey t.entries k e) :
    Represents t' m := by
  refine ⟨hwf, fun k => ?_⟩
  rw [← h.find_eq k]
  apply Option.ext
  intro v
  rw [find_eq_some hwf.placed, find_eq_some h.placed]
  simp only [hs k]

/-- **GROWTH LOSES NOTHING**: `ht_expand` either fails and leaves the table, or
    gives a table of twice the size that is the same map. -/
theorem Represents.htExpand_spec (h : Represents t m) (a : Allocator) :
    ∃ o a', htExpand a t = .ok (o, a') ∧
      (a'.failed = false → a.failed = false ∧ o.isSome = true) ∧
      ∀ t', o = some t' → Represents t' m ∧
        occupied entryKey t'.entries < t'.capacity.toNat / 2 ∧
        ∀ k, k ∈ t'.keys ↔ k ∈ t.keys := by
  have hbase := h.base
  have hfits := h.fits
  have hhalf := h.half
  have hdouble : (t.capacity * 2#64).toNat = t.capacity.toNat * 2 := by
    rw [BitVec.toNat_mul]
    unfold sizeofEntry at hfits
    exact Nat.mod_eq_of_lt (by show t.capacity.toNat * 2 < _; omega)
  unfold htExpand
  simp only
  rw [if_neg (by rw [BitVec.lt_def, hdouble]; omega)]
  by_cases hok : (a.request ((t.capacity * 2#64).toNat * sizeofEntry)).1 = true
  · rw [if_pos hok]
    have hsz : (t.capacity * 2#64).toNat * sizeofEntry < 2 ^ 64 := by
      rw [Allocator.request, Bool.and_eq_true, decide_eq_true_iff] at hok
      exact hok.1
    have hz : Placed entryKey (homeOf (t.capacity * 2#64))
        (zeroed (t.capacity * 2#64) t.length : Ht α).entries :=
      placed_zeroed (by omega) t.length
    have hzl := (zeroed (t.capacity * 2#64) t.length : Ht α).sized
    have hzo := occupied_zeroed (α := α) (t.capacity * 2#64) t.length
    rw [show (zeroed (t.capacity * 2#64) t.length : Ht α).capacity = t.capacity * 2#64
      from rfl] at hzl
    obtain ⟨moved, hins, hlen, hplaced, hocc, hstored⟩ := insertAll_spec h.placed.distinct hz
      (by omega) (fun k e _ _ i hi => by
        obtain ⟨e', he', hk'⟩ := keyAt_eq_some.mp hi
        exact not_stored_zeroed _ _ k e' ⟨i, he', hk'⟩)
    have hre := reinsert_of_insertAll hzl (by omega) hins
    split
    · rename_i e he
      exact nomatch he.symm.trans hre
    · rename_i moved' he
      have hm : moved' = moved := Except.ok.inj (he.symm.trans hre)
      subst hm
      refine ⟨_, _, rfl, ?_, ?_⟩
      · intro hf
        exact ⟨(Allocator.request_of_not_failed hf).1, rfl⟩
      · intro t' ht'
        have hocc' : occupied entryKey moved' = occupied entryKey t.entries := by omega
        have hent : t'.entries = moved' := by rw [← Option.some.inj ht']
        have hcap : t'.capacity = t.capacity * 2#64 := by rw [← Option.some.inj ht']
        have hlength : t'.length = t.length := by rw [← Option.some.inj ht']
        have hsame : ∀ k e, Stored entryKey t'.entries k e ↔ Stored entryKey t.entries k e := by
          intro k e
          rw [hent, hstored k e]
          constructor
          · rintro (hz' | ⟨hmem, hk⟩)
            · exact absurd hz' (not_stored_zeroed _ _ k e)
            · obtain ⟨j, hj⟩ := List.mem_iff_getElem?.mp hmem
              exact ⟨j, hj, hk⟩
          · rintro ⟨j, hj, hk⟩
            exact Or.inr ⟨List.mem_of_getElem? hj, hk⟩
        refine ⟨h.of_stored ⟨?_, ?_, ?_, ?_, ?_⟩ hsame, ?_, fun k => ?_⟩
        · rw [hent, hcap]
          exact hplaced
        · rw [hent, hlength, hocc', h.count]
        · rw [hent, hcap]
          omega
        · rw [hcap]
          omega
        · rw [hcap]
          exact hsz
        · rw [hent, hcap]
          omega
        · rw [mem_keys, mem_keys]
          exact exists_congr (hsame k)
  · rw [if_neg hok]
    refine ⟨none, _, rfl, ?_, fun t' ht' => nomatch ht'⟩
    intro hf
    exact absurd (Allocator.request_of_not_failed hf).2.1 hok

/-- **`ht_set`** updates the map at one key and returns that key, or returns
    NULL after a failed allocation and leaves the table as it was. -/
theorem Represents.htSet_spec (h : Represents t m) (hk : key ≠ nullCode) (v : α)
    (a : Allocator) :
    ∃ r t' a', htSet a t key (some v) = .ok (r, t', a') ∧
      ((r = key ∧ Represents t' (update m key v) ∧
          (∀ k, k ∈ t'.keys ↔ k = key ∨ k ∈ t.keys) ∧
          (a'.failed = false → a.failed = false)) ∨
        (r = nullCode ∧ t' = t ∧ a'.failed = true)) := by
  unfold htSet
  rw [if_neg (by simp), if_neg hk]
  by_cases hfull : t.capacity / 2#64 ≤ t.length
  · rw [if_pos hfull]
    obtain ⟨o, a', hex, hfail, hrep⟩ := h.htExpand_spec a
    rw [hex]
    cases o with
    | none =>
        refine ⟨_, _, _, rfl, Or.inr ⟨rfl, rfl, ?_⟩⟩
        cases hf : a'.failed with
        | true => rfl
        | false => exact nomatch (hfail hf).2
    | some t2 =>
        obtain ⟨hr2, hroom, hkeys2⟩ := hrep t2 rfl
        obtain ⟨t', hset, hr', hkeys⟩ := hr2.setInPlace_spec hk hroom v
        refine ⟨key, t', a', ?_, Or.inl ⟨rfl, hr', fun k => ?_, fun hf => (hfail hf).1⟩⟩
        · simp only [bind, Except.bind, hset]
        · rw [hkeys k, hkeys2 k]
  · rw [if_neg hfull]
    have hroom : occupied entryKey t.entries < t.capacity.toNat / 2 := by
      rw [BitVec.le_def, BitVec.toNat_udiv, h.count] at hfull
      exact Nat.lt_of_not_le hfull
    obtain ⟨t', hset, hr', hkeys⟩ := h.setInPlace_spec hk hroom v
    refine ⟨key, t', a, ?_, Or.inl ⟨rfl, hr', hkeys, fun hf => hf⟩⟩
    simp only [bind, Except.bind, hset]

/-- The length counts the keys. -/
theorem Ht.WellFormed.length_eq (h : t.WellFormed) :
    t.length.toNat = t.keys.length ∧ t.keys.Nodup := by
  refine ⟨?_, h.placed.distinct.nodup_keysOf⟩
  unfold Ht.keys
  rw [length_keysOf, h.count]

end CamlHashTable
