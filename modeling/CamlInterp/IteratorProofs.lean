import CamlInterp.HashTableProofs

/-! # The iterator of the hash table

    `ht_iterator` and `ht_next` of `interp.c` visit the slots in the order of the
    array, whatever order the probes have filled them in.  What is still ahead of
    an iterator is a list of pairs; one `ht_next` takes its head, and the pairs of
    the whole array are the finite map that `ht_get` reads. -/

namespace CamlIterator

open CamlValue LinearProbe CamlHashTable

variable {α : Type}

/-! ## Reachable tables -/

/-- The tables that `ht_create` and any calls of `ht_set` leave, with the
    allocator as it then is. -/
inductive Reachable : Ht α → Allocator → Prop
  | create {a a' : Allocator} {t : Ht α} : htCreate a = (some t, a') → Reachable t a'
  | set (key : CodePtr) (value : Option α) {a a' : Allocator} {t t' : Ht α} {r : CodePtr} :
      Reachable t a → htSet a t key value = .ok (r, t', a') → Reachable t' a'

/-- A table in order, without NULL among its values. -/
def Sound (t : Ht α) : Prop :=
  ∃ m, Represents t m ∧ ∀ k ∈ t.keys, (m k).isSome

/-- A call of `ht_set` that returns was given a key and a value. -/
theorem htSet_some {a : Allocator} {t : Ht α} {key : CodePtr} {value : Option α}
    {x : CodePtr × Ht α × Allocator} (h : htSet a t key value = .ok x) :
    key ≠ nullCode ∧ ∃ v, value = some v := by
  cases value with
  | none => cases h
  | some v =>
      refine ⟨?_, v, rfl⟩
      rintro rfl
      cases h

/-- `ht_set` keeps the table sound. -/
theorem Sound.htSet {a a' : Allocator} {t t' : Ht α} {key r : CodePtr} {value : Option α}
    (h : Sound t) (hset : htSet a t key value = .ok (r, t', a')) : Sound t' := by
  obtain ⟨m, hrep, hval⟩ := h
  obtain ⟨hk, v, rfl⟩ := htSet_some hset
  obtain ⟨r1, t1, a1, hset1, hcase⟩ := hrep.htSet_spec hk v a
  have heq := Except.ok.inj (hset1.symm.trans hset)
  obtain rfl : t1 = t' := congrArg (fun x => x.2.1) heq
  rcases hcase with ⟨-, hrep', hkeys, -⟩ | ⟨-, rfl, -⟩
  · refine ⟨_, hrep', fun k hmem => ?_⟩
    unfold update
    by_cases hkk : k = key
    · rw [if_pos hkk]
      rfl
    · rw [if_neg hkk]
      exact hval k (((hkeys k).mp hmem).resolve_left hkk)
  · exact ⟨m, hrep, hval⟩

theorem Reachable.sound {a : Allocator} {t : Ht α} (h : Reachable t a) : Sound t := by
  induction h with
  | create hcreate =>
      obtain ⟨hrep, hnone⟩ := represents_htCreate hcreate
      refine ⟨_, hrep, fun k hmem => ?_⟩
      rw [hnone] at hmem
      cases hmem
  | set key value _ hset ih => exact ih.htSet hset

/-! ## `ht_next` -/

/-- `hti`. -/
structure Hti (α : Type) where
  key : CodePtr
  value : Option α
  table : Ht α
  index : BitVec 64

/-- `ht_iterator`: `key` and `value` are not set, and hold whatever was there. -/
def htIterator (key : CodePtr) (value : Option α) (table : Ht α) : Hti α where
  key := key
  value := value
  table := table
  index := 0#64

/-- The loop of `ht_next`; more rounds than slots never end. -/
def nextLoop : Nat → Hti α → C (Bool × Hti α)
  | 0, _ => .error .diverged
  | fuel + 1, it =>
      if it.index < it.table.capacity then do
        let i := it.index
        let it := { it with index := it.index + 1#64 }
        let entry ← orUndefined it.table.entries[i.toNat]?
        if entry.key ≠ nullCode then
          .ok (true, { it with key := entry.key, value := entry.value })
        else nextLoop fuel it
      else .ok (false, it)

/-- `ht_next`. -/
def htNext (it : Hti α) : C (Bool × Hti α) := nextLoop (it.table.entries.length + 1) it

/-- Call `ht_next` until it returns false, and collect the pairs. -/
def collect : Nat → Hti α → C (List (CodePtr × Option α) × Hti α)
  | 0, _ => .error .diverged
  | fuel + 1, it => do
      let (more, it) ← htNext it
      if more then
        let (pairs, last) ← collect fuel it
        .ok ((it.key, it.value) :: pairs, last)
      else .ok ([], it)

/-- All the pairs an iterator yields: no table yields more than it has slots. -/
def htPairs (it : Hti α) : C (List (CodePtr × Option α) × Hti α) :=
  collect (it.table.entries.length + 1) it

/-! ## What is ahead -/

/-- The pair in a slot. -/
def entryPair (e : HtEntry α) : Option (CodePtr × Option α) :=
  (entryKey e).map (fun k => (k, e.value))

/-- The pairs in an array, in the order of the slots. -/
def pairsOf (entries : List (HtEntry α)) : List (CodePtr × Option α) :=
  entries.filterMap entryPair

/-- The slots an iterator has not seen. -/
def Hti.ahead (it : Hti α) : List (HtEntry α) := it.table.entries.drop it.index.toNat

/-- The index of an iterator is in the array or at its end. -/
def Hti.Inside (it : Hti α) : Prop := it.index.toNat ≤ it.table.capacity.toNat

theorem pairsOf_free {e : HtEntry α} (h : e.key = nullCode) (rest : List (HtEntry α)) :
    pairsOf (e :: rest) = pairsOf rest := by
  refine List.filterMap_cons_none ?_
  unfold entryPair
  rw [entryKey_eq_none.mpr h]
  rfl

theorem pairsOf_occupied {e : HtEntry α} (h : e.key ≠ nullCode) (rest : List (HtEntry α)) :
    pairsOf (e :: rest) = (e.key, e.value) :: pairsOf rest := by
  refine List.filterMap_cons_some ?_
  unfold entryPair
  rw [entryKey_eq_some.mpr ⟨rfl, h⟩]
  rfl

/-- An iterator that has seen every slot. -/
theorem ahead_of_end {it : Hti α} (h : ¬ it.index < it.table.capacity) : it.ahead = [] := by
  refine List.drop_eq_nil_of_le ?_
  rw [it.table.sized]
  exact Nat.le_of_not_lt h

/-- An iterator that has not: the slot it looks at, and what is behind it. -/
theorem ahead_of_lt {it : Hti α} (h : it.index < it.table.capacity) :
    ∃ e, it.table.entries[it.index.toNat]? = some e ∧
      it.ahead = e :: Hti.ahead { it with index := it.index + 1#64 } ∧
      Hti.Inside { it with index := it.index + 1#64 } := by
  have hlt : it.index.toNat < it.table.capacity.toNat := h
  have hlen : it.index.toNat < it.table.entries.length := by
    rw [it.table.sized]
    exact hlt
  have hsucc : (it.index + 1#64).toNat = it.index.toNat + 1 := by
    have := it.table.capacity.isLt
    rw [BitVec.toNat_add]
    exact Nat.mod_eq_of_lt (by simp only [BitVec.toNat_ofNat]; omega)
  refine ⟨_, List.getElem?_eq_getElem hlen, ?_, ?_⟩
  · show it.table.entries.drop _ = _ :: it.table.entries.drop (it.index + 1#64).toNat
    rw [hsucc]
    exact List.drop_eq_getElem_cons hlen
  · show (it.index + 1#64).toNat ≤ _
    rw [hsucc]
    exact hlt

/-! ## One step and a run -/

/-- What `ht_next` gives: the first pair ahead, or false at the end. -/
def Gives (it it' : Hti α) (more : Bool) : Prop :=
  it'.table = it.table ∧ it'.Inside ∧
    (more = true ∧ pairsOf it.ahead = (it'.key, it'.value) :: pairsOf it'.ahead ∨
      more = false ∧ pairsOf it.ahead = [] ∧ ¬ it'.index < it'.table.capacity)

/-- The loop passes the free slots. -/
theorem nextLoop_gives {fuel : Nat} {it : Hti α} (hin : it.Inside)
    (hfuel : it.ahead.length < fuel) :
    ∃ more it', nextLoop fuel it = .ok (more, it') ∧ Gives it it' more := by
  induction fuel generalizing it with
  | zero => exact absurd hfuel (Nat.not_lt_zero _)
  | succ fuel ih =>
      rw [nextLoop]
      by_cases hlt : it.index < it.table.capacity
      · obtain ⟨e, he, hahead, hin'⟩ := ahead_of_lt hlt
        rw [if_pos hlt]
        show ∃ more it', (orUndefined it.table.entries[it.index.toNat]? >>= _) = _ ∧ _
        rw [he]
        by_cases hk : e.key ≠ nullCode
        · refine ⟨true, _, if_pos hk, rfl, hin', Or.inl ⟨rfl, ?_⟩⟩
          rw [hahead, pairsOf_occupied hk]
          rfl
        · -- a free slot adds nothing to the pairs ahead
          rw [hahead, List.length_cons, Nat.add_lt_add_iff_right] at hfuel
          obtain ⟨more, it', hloop, htable, hin'', hgives⟩ := ih hin' hfuel
          refine ⟨more, it', (if_neg hk).trans hloop, htable, hin'', ?_⟩
          rw [hahead, pairsOf_free (Classical.not_not.mp hk)]
          exact hgives
      · refine ⟨false, it, if_neg hlt, rfl, hin, Or.inr ⟨rfl, ?_, hlt⟩⟩
        rw [ahead_of_end hlt]
        rfl

theorem length_ahead (it : Hti α) : it.ahead.length ≤ it.table.entries.length := by
  unfold Hti.ahead
  rw [List.length_drop]
  exact Nat.sub_le _ _

/-- **ONE `ht_next`** returns, with the first pair ahead of the iterator. -/
theorem htNext_gives {it : Hti α} (hin : it.Inside) :
    ∃ more it', htNext it = .ok (more, it') ∧ Gives it it' more :=
  nextLoop_gives hin (Nat.lt_succ_of_le (length_ahead it))

/-- At the end `ht_next` returns false and changes nothing. -/
theorem htNext_end {it : Hti α} (h : ¬ it.index < it.table.capacity) :
    htNext it = .ok (false, it) := by
  unfold htNext
  rw [nextLoop, if_neg h]

/-- **A RUN OF `ht_next`** yields the pairs ahead, in order, and ends where
    `ht_next` returns false for good. -/
theorem collect_eq {fuel : Nat} {it : Hti α} (hin : it.Inside)
    (hfuel : (pairsOf it.ahead).length < fuel) :
    ∃ last, collect fuel it = .ok (pairsOf it.ahead, last) ∧ htNext last = .ok (false, last) := by
  induction fuel generalizing it with
  | zero => exact absurd hfuel (Nat.not_lt_zero _)
  | succ fuel ih =>
      obtain ⟨more, it', hnext, -, hin', hcase⟩ := htNext_gives hin
      rw [collect, hnext]
      rcases hcase with ⟨rfl, hpairs⟩ | ⟨rfl, hpairs, hend⟩
      · rw [hpairs, List.length_cons, Nat.add_lt_add_iff_right] at hfuel
        obtain ⟨last, hrest, hlast⟩ := ih hin' hfuel
        refine ⟨last, ?_, hlast⟩
        rw [hpairs]
        exact bind_eq_ok.mpr ⟨_, rfl, bind_eq_ok.mpr ⟨_, hrest, rfl⟩⟩
      · refine ⟨it', ?_, htNext_end hend⟩
        rw [hpairs]
        rfl

/-! ## The pairs of a sound table -/

theorem map_pairsOf (entries : List (HtEntry α)) :
    (pairsOf entries).map Prod.fst = keysOf entryKey entries := by
  unfold pairsOf keysOf
  rw [List.map_filterMap]
  congr 1
  funext e
  unfold entryPair
  rw [Option.map_map]
  exact Option.map_id'

/-- A pair is in the array when some slot stores it. -/
theorem mem_pairsOf {entries : List (HtEntry α)} {k : CodePtr} {v : Option α} :
    (k, v) ∈ pairsOf entries ↔ ∃ e, Stored entryKey entries k e ∧ e.value = v := by
  unfold pairsOf
  rw [List.mem_filterMap]
  constructor
  · rintro ⟨e, he, hpair⟩
    obtain ⟨k', hk', heq⟩ := Option.map_eq_some_iff.mp hpair
    obtain ⟨i, hi⟩ := List.mem_iff_getElem?.mp he
    refine ⟨e, ⟨i, hi, ?_⟩, congrArg Prod.snd heq⟩
    rw [hk', show k' = k from congrArg Prod.fst heq]
  · rintro ⟨e, ⟨i, hi, hkey⟩, hv⟩
    refine ⟨e, List.mem_of_getElem? hi, ?_⟩
    unfold entryPair
    rw [hkey, ← hv]
    rfl

/-- The pairs of the array are what `ht_get` returns. -/
theorem Sound.mem_pairs {t : Ht α} (h : Sound t) {k : CodePtr} {v : Option α} :
    (k, v) ∈ pairsOf t.entries ↔ v ≠ none ∧ htGet t k = .ok v := by
  obtain ⟨m, hrep, hval⟩ := h
  rw [hrep.htGet_eq k, mem_pairsOf]
  constructor
  · rintro ⟨e, hs, rfl⟩
    have hfind : m k = e.value := by
      rw [← hrep.find_eq k]
      unfold Ht.find
      rw [hrep.placed.lookup_eq_some.mpr hs]
      rfl
    have hsome := hval k (mem_keys.mpr ⟨e, hs⟩)
    rw [hfind] at hsome
    exact ⟨Option.isSome_iff_ne_none.mp hsome, by rw [hfind]⟩
  · rintro ⟨hv, hget⟩
    obtain ⟨w, rfl⟩ := Option.ne_none_iff_exists'.mp hv
    refine (find_eq_some hrep.placed).mp ?_
    rw [hrep.find_eq k]
    exact Except.ok.inj hget

/-- **ITERATION**: over a table that calls of `ht_set` have left, `ht_next` yields
    `ht_length` pairs, no key twice; they are the keys with the values that
    `ht_get` returns for them; and after them it returns false for good. -/
theorem iteration_exhaustive (t : Ht α) (a : Allocator) (h : Reachable t a)
    (key : CodePtr) (value : Option α) :
    ∃ pairs last, htPairs (htIterator key value t) = .ok (pairs, last) ∧
      pairs.length = (htLength t).toNat ∧ (pairs.map Prod.fst).Nodup ∧
      (∀ k v, (k, v) ∈ pairs ↔ v ≠ none ∧ htGet t k = .ok v) ∧
      (∀ k, k ∈ pairs.map Prod.fst ↔ k ∈ t.keys) ∧
      htNext last = .ok (false, last) := by
  have hsound := h.sound
  obtain ⟨m, hrep, -⟩ := id hsound
  obtain ⟨hlen, hnodup⟩ := hrep.length_eq
  have hkeys : (pairsOf t.entries).map Prod.fst = t.keys := map_pairsOf t.entries
  have hle : (pairsOf t.entries).length < t.entries.length + 1 :=
    Nat.lt_succ_of_le (List.length_filterMap_le _ _)
  have hin : (htIterator key value t).Inside := Nat.zero_le _
  obtain ⟨last, hrun, hlast⟩ := collect_eq hin hle
  refine ⟨pairsOf t.entries, last, hrun, ?_, ?_, fun k v => hsound.mem_pairs, fun k => ?_,
    hlast⟩
  · rw [← List.length_map (f := Prod.fst), hkeys]
    exact hlen.symm
  · rw [hkeys]
    exact hnodup
  · rw [hkeys]

/-- An allocator that refuses nothing. -/
def generous : Allocator where
  grants := fun _ _ => true
  requests := 0
  failed := false

/-- Two writes to one key, and between them one to a key with the same home slot. -/
theorem iteration_exhaustive_two :
    ∃ (t : Ht Nat) (a : Allocator), Reachable t a ∧ htGet t 4096#64 = .ok (some 3) ∧
      ∃ pairs last, htPairs (htIterator nullCode none t) = .ok (pairs, last) ∧
        pairs.length = 2 ∧ (4096#64, some 3) ∈ pairs := by
  have h : ∃ t a, Reachable (α := Nat) t a ∧ htGet t 4096#64 = .ok (some 3) ∧
      (htLength t).toNat = 2 :=
    ⟨_, _, .set 4096#64 (some 3) (.set 4112#64 (some 2) (.set 4096#64 (some 1)
      (.create (a := generous) rfl) rfl) rfl) rfl, rfl, rfl⟩
  obtain ⟨t, a, ht, hget, hlen⟩ := h
  obtain ⟨pairs, last, hrun, hcount, -, hmem, -⟩ := iteration_exhaustive t a ht nullCode none
  exact ⟨t, a, ht, hget, pairs, last, hrun, hcount.trans hlen,
    (hmem _ _).mpr ⟨Option.some_ne_none 3, hget⟩⟩

end CamlIterator
