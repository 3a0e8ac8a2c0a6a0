import CamlInterp.InstrProofs

/-! # Method tables and the cache of `GETPUBMET`

    A class keeps its public tags at odd indices of its method table, in
    increasing order, each behind the method it names.  `GETPUBMET` remembers in
    its own code where it last found its tag, as a byte offset.  The offset is
    used on tables of other classes too: a mask in the table, one less than a
    power of two, keeps it inside, and `init_class` pads the table to the mask.

    The offset is kept in a 32-bit code word. -/

namespace CamlMethodCache

open CellStore CamlValue CamlMachine CamlInstr

/-! ## Tables of `camlinternalOO.ml` -/

/-- `fit_size`. -/
def fitSize (n : Nat) : Nat :=
  if n ≤ 2 then n else fitSize ((n + 1) / 2) * 2
termination_by n
decreasing_by omega

/-- `dummy_met`. -/
def dummyMet : Value := .atom 0

/-- The loop of `new_table`: from index 2 on, a method and its tag in turn. -/
def tagSlots : List Long → List Value
  | [] => []
  | tag :: tags => dummyMet :: valLong tag :: tagSlots tags

/-- `new_table`: the methods array; `Sys.word_size` is 64. -/
def newTable (pubLabels : List Long) : List Value :=
  valInt pubLabels.length :: valInt (fitSize pubLabels.length * 64 / 8 - 1) :: tagSlots pubLabels

/-- `resize`. -/
def resize (methods : List Value) (newSize : Nat) : List Value :=
  methods ++ List.replicate (newSize - methods.length) dummyMet

/-- `put`. -/
def put (methods : List Value) (label : Nat) (element : Value) : List Value :=
  (resize methods (label + 1)).set label element

/-- `methods.(1) * 16 / Sys.word_size`. -/
def maskSlots (methods : List Value) : Nat :=
  match methods[1]? with
  | some (Value.word w) => ((untagged w).toInt * 16 / 64).toNat
  | _ => 0

/-- `init_class`. -/
def initClass (methods : List Value) : List Value := resize methods (3 + maskSlots methods)

/-- The tables of classes with the public tags `tags`; `init_class` has padded
    those marked `true`. -/
inductive Built (tags : List Long) : Bool → List Value → Prop where
  | newTable : Built tags false (newTable tags)
  /-- `new_method` -/
  | newMethod {padded : Bool} {methods : List Value} : Built tags padded methods →
      Built tags padded (resize methods (methods.length + 1))
  /-- `set_method`, with the label of a public method or one of `new_method` -/
  | put {padded : Bool} {methods : List Value} {label : Nat} {element : Value} :
      Built tags padded methods →
      (label % 2 = 0 ∧ 2 ≤ label) ∨ 2 * tags.length + 2 ≤ label →
      isBlock element = .ok true → Built tags padded (put methods label element)
  /-- `new_cache`, and what is cached there later -/
  | cache {padded : Bool} {methods : List Value} {n : Nat} {element : Value} :
      Built tags padded methods → n < methods.length → 2 * tags.length + 2 ≤ n →
      n % 2 = 0 ∨ 2 + maskSlots methods < n → Built tags padded (methods.set n element)
  | initClass {methods : List Value} : Built tags false methods →
      Built tags true (initClass methods)

/-! ## The power of two -/

theorem fitSize_step {n : Nat} (h : ¬ n ≤ 2) : fitSize n = fitSize ((n + 1) / 2) * 2 := by
  rw [fitSize, if_neg h]

theorem fitSize_pow {n : Nat} (h : 0 < n) : ∃ k, fitSize n = 2 ^ k := by
  induction n using Nat.strong_induction_on with
  | _ n ih =>
      by_cases hn : n ≤ 2
      · rw [fitSize, if_pos hn]
        rcases (by omega : n = 1 ∨ n = 2) with rfl | rfl
        · exact ⟨0, rfl⟩
        · exact ⟨1, rfl⟩
      · obtain ⟨k, hk⟩ := ih ((n + 1) / 2) (by omega) (by omega)
        refine ⟨k + 1, ?_⟩
        rw [fitSize_step hn, hk, Nat.pow_succ]

theorem le_fitSize (n : Nat) : n ≤ fitSize n := by
  induction n using Nat.strong_induction_on with
  | _ n ih =>
      by_cases hn : n ≤ 2
      · rw [fitSize, if_pos hn]
      · have hhalf := ih ((n + 1) / 2) (by omega)
        rw [fitSize_step hn]
        omega

/-- `fit_size n` is the least power of two that is not below `n`. -/
theorem fitSize_le {n k : Nat} (h : n ≤ 2 ^ k) : fitSize n ≤ 2 ^ k := by
  induction n using Nat.strong_induction_on generalizing k with
  | _ n ih =>
      by_cases hn : n ≤ 2
      · rw [fitSize, if_pos hn]
        exact h
      · cases k with
        | zero => omega
        | succ k =>
            rw [Nat.pow_succ] at h ⊢
            have hhalf := ih ((n + 1) / 2) (by omega) (k := k) (by omega)
            rw [fitSize_step hn]
            omega

/-! ## What every table looks like -/

/-- The words `GETPUBMET` may read of a table: the count, the mask, the tags, and
    at odd indices under the mask behind them nothing that looks like a tag. -/
structure TableWords (tags : List Long) (methods : List Value) : Prop where
  count : methods[0]? = some (valInt tags.length)
  mask : methods[1]? = some (valInt (fitSize tags.length * 64 / 8 - 1))
  tag : ∀ {i t}, tags[i]? = some t → methods[2 * i + 3]? = some (valLong t)
  other : ∀ {k v}, methods[k]? = some v → k % 2 = 1 → 2 * tags.length + 3 ≤ k →
    k ≤ 2 * fitSize tags.length + 1 → isBlock v = .ok true
  length : 2 * tags.length + 2 ≤ methods.length

variable {tags : List Long} {methods : List Value} {padded : Bool}

theorem length_tagSlots (tags : List Long) : (tagSlots tags).length = 2 * tags.length := by
  induction tags with
  | nil => rfl
  | cons t tags ih =>
      show (tagSlots tags).length + 1 + 1 = 2 * (tags.length + 1)
      rw [ih]
      omega

theorem tagSlots_tag {i : Nat} {t : Long} (h : tags[i]? = some t) :
    (tagSlots tags)[2 * i + 1]? = some (valLong t) := by
  induction tags generalizing i with
  | nil => exact nomatch h
  | cons t' tags ih =>
      cases i with
      | zero =>
          obtain rfl := Option.some.inj h
          rfl
      | succ i => exact ih h

theorem tableWords_newTable (tags : List Long) : TableWords tags (newTable tags) := by
  have hlen : (newTable tags).length = 2 * tags.length + 2 :=
    congrArg (· + 2) (length_tagSlots tags)
  refine ⟨rfl, rfl, fun h => tagSlots_tag h, ?_, by omega⟩
  intro k v hk _ hbehind _
  have hlt := (List.getElem?_eq_some_iff.mp hk).1
  omega

/-- Writing to a word that is neither the count, the mask nor a tag. -/
theorem TableWords.set (h : TableWords tags methods) {n : Nat} {v : Value}
    (hn : (n % 2 = 0 ∧ 2 ≤ n) ∨ 2 * tags.length + 2 ≤ n)
    (hv : isBlock v = .ok true ∨ n % 2 = 0 ∨ 2 * fitSize tags.length + 1 < n) :
    TableWords tags (methods.set n v) := by
  have hkeep : ∀ k, k ≠ n → (methods.set n v)[k]? = methods[k]? :=
    fun k hk => List.getElem?_set_ne (fun e => hk e.symm)
  refine ⟨?_, ?_, ?_, ?_, ?_⟩
  · rw [hkeep 0 (by omega)]
    exact h.count
  · rw [hkeep 1 (by omega)]
    exact h.mask
  · intro i t hi
    have hlt := (List.getElem?_eq_some_iff.mp hi).1
    rw [hkeep (2 * i + 3) (by omega)]
    exact h.tag hi
  · intro k w hk hodd hbehind hmask
    by_cases hkn : k = n
    · subst hkn
      have hlt := (List.getElem?_eq_some_iff.mp hk).1
      rw [List.length_set] at hlt
      rw [List.getElem?_set_self hlt] at hk
      obtain rfl := Option.some.inj hk
      rcases hv with hv | hv | hv
      · exact hv
      · omega
      · omega
    · rw [hkeep k hkn] at hk
      exact h.other hk hodd hbehind hmask
  · rw [List.length_set]
    exact h.length

theorem length_resize (methods : List Value) (newSize : Nat) :
    (resize methods newSize).length = max methods.length newSize := by
  unfold resize
  rw [List.length_append, List.length_replicate]
  omega

/-- A table that is made larger keeps its words. -/
theorem tableWords_resize (h : TableWords tags methods) (newSize : Nat) :
    TableWords tags (resize methods newSize) := by
  have hlen := h.length
  have hkeep : ∀ {k : Nat} {w}, methods[k]? = some w → (resize methods newSize)[k]? = some w := by
    intro k w hk
    have hlt := (List.getElem?_eq_some_iff.mp hk).1
    unfold resize
    rw [List.getElem?_append_left hlt, hk]
  refine ⟨hkeep h.count, hkeep h.mask, fun hi => hkeep (h.tag hi), ?_, ?_⟩
  · intro k w hk hodd hbehind hmask
    by_cases hlt : k < methods.length
    · unfold resize at hk
      rw [List.getElem?_append_left hlt] at hk
      exact h.other hk hodd hbehind hmask
    · unfold resize at hk
      rw [List.getElem?_append_right (by omega)] at hk
      obtain ⟨-, rfl⟩ := List.mem_replicate.mp (List.mem_of_getElem? hk)
      rfl
  · rw [length_resize]
    omega

/-- The padding of `init_class` is up to the mask. -/
theorem maskSlots_eq (h : TableWords tags methods) (hpos : 0 < tags.length)
    (hlt : fitSize tags.length < 2 ^ 58) :
    maskSlots methods = 2 * fitSize tags.length - 1 := by
  have hle := le_fitSize tags.length
  unfold maskSlots
  rw [h.mask]
  show ((untagged (tagged (BitVec.ofInt 63 _))).toInt * 16 / 64).toNat = _
  rw [untagged_tagged, BitVec.toInt_ofInt, Int.bmod_eq_of_le (by omega) (by omega)]
  omega

/-- The table of a class has its size, its mask and its methods in place. -/
theorem built_tableWords (h : Built tags padded methods) (hpos : 0 < tags.length)
    (hlt : fitSize tags.length < 2 ^ 58) :
    TableWords tags methods ∧
      (padded = true → 2 * fitSize tags.length + 2 ≤ methods.length) := by
  induction h with
  | newTable => exact ⟨tableWords_newTable tags, nofun⟩
  | newMethod _ ih =>
      refine ⟨tableWords_resize ih.1 _, fun hp => ?_⟩
      have := ih.2 hp
      rw [length_resize]
      omega
  | put _ hlabel hblock ih =>
      refine ⟨(tableWords_resize ih.1 _).set hlabel (Or.inl hblock), fun hp => ?_⟩
      have := ih.2 hp
      unfold put
      rw [List.length_set, length_resize]
      omega
  | cache _ _ hbehind hn ih =>
      rw [maskSlots_eq ih.1 hpos hlt] at hn
      refine ⟨ih.1.set (Or.inr hbehind) (Or.inr (hn.imp id (fun h => by omega))), fun hp => ?_⟩
      rw [List.length_set]
      exact ih.2 hp
  | initClass _ ih =>
      refine ⟨tableWords_resize ih.1 _, fun _ => ?_⟩
      unfold initClass
      rw [length_resize, maskSlots_eq ih.1 hpos hlt]
      omega

/-! ## The search -/

/-- The method table of a class, in the heap, with its tags in strict order. -/
structure MethodTable (h : Heap) (meths : Value) (tags : List Long) (methods : List Value) :
    Prop where
  block : ∃ b tag, meths = .ptr b 0 ∧ h.get b = some ⟨tag, methods⟩
  words : TableWords tags methods
  padded : 2 * fitSize tags.length + 2 ≤ methods.length
  nonempty : 0 < tags.length
  increasing : ∀ {i j : Nat} {a b : Long}, i < j → tags[i]? = some a → tags[j]? = some b →
    a.toInt < b.toInt

variable {h : Heap} {meths : Value} {i j : Nat} {t : Long}

theorem MethodTable.field (ht : MethodTable h meths tags methods) {k : Nat} {v : Value}
    (hk : methods[k]? = some v) : field h meths k = .ok v := by
  obtain ⟨b, tag, rfl, hb⟩ := ht.block
  exact field_ptr_zero hb hk

/-- A tag is before another one when its index is. -/
theorem MethodTable.slt_iff (ht : MethodTable h meths tags methods) {u : Long}
    (hi : tags[i]? = some t) (hj : tags[j]? = some u) :
    (tagged t).slt (tagged u) = true ↔ i < j := by
  rw [BitVec.slt_iff_toInt_lt, toInt_tagged, toInt_tagged]
  constructor
  · intro hlt
    rcases Nat.lt_trichotomy i j with hij | rfl | hij
    · exact hij
    · obtain rfl := Option.some.inj (hi.symm.trans hj)
      omega
    · have := ht.increasing hij hj hi
      omega
  · intro hij
    have := ht.increasing hij hi hj
    omega

/-- One round of the search: `mi` is the index of a tag between the bounds. -/
theorem methodSearch_round (ht : MethodTable h meths tags methods) (hj : tags[j]? = some t)
    {a b : Nat} (hab : a < b) (hb : b < tags.length) (fuel : Nat) :
    methodSearch h meths (tagged t) (fuel + 1) (2 * (a : Int) + 3) (2 * (b : Int) + 3)
      = if 2147483648 ≤ 2 * (a : Int) + 3 + (2 * (b : Int) + 3) then .error .undefined
        else if j < (a + b + 1) / 2 then
          methodSearch h meths (tagged t) fuel (2 * (a : Int) + 3)
            (2 * (((a + b + 1) / 2 - 1 : Nat) : Int) + 3)
        else
          methodSearch h meths (tagged t) fuel (2 * (((a + b + 1) / 2 : Nat) : Int) + 3)
            (2 * (b : Int) + 3) := by
  obtain ⟨u, hu⟩ : ∃ u, tags[(a + b + 1) / 2]? = some u :=
    ⟨_, List.getElem?_eq_getElem (show (a + b + 1) / 2 < tags.length by omega)⟩
  have hmi : (if (2 * (a : Int) + 3 + (2 * (b : Int) + 3)) / 2 % 2 = 0 then
      (2 * (a : Int) + 3 + (2 * (b : Int) + 3)) / 2 + 1
      else (2 * (a : Int) + 3 + (2 * (b : Int) + 3)) / 2)
      = ((2 * ((a + b + 1) / 2) + 3 : Nat) : Int) := by
    split
    · omega
    · omega
  rw [methodSearch, if_pos (by omega)]
  dsimp only
  rw [hmi, ht.field (ht.words.tag hu)]
  by_cases hover : 2147483648 ≤ 2 * (a : Int) + 3 + (2 * (b : Int) + 3)
  · rw [if_pos hover, if_pos hover]
    rfl
  · rw [if_neg hover, if_neg hover]
    show (if (tagged t).slt (tagged u) then _ else _) = _
    by_cases hlt : j < (a + b + 1) / 2
    · have hhi : ((2 * ((a + b + 1) / 2) + 3 : Nat) : Int) - 2
          = 2 * (((a + b + 1) / 2 - 1 : Nat) : Int) + 3 := by omega
      rw [if_pos hlt, if_pos ((ht.slt_iff hj hu).mpr hlt), hhi]
    · have hli : ((2 * ((a + b + 1) / 2) + 3 : Nat) : Int)
          = 2 * (((a + b + 1) / 2 : Nat) : Int) + 3 := by omega
      rw [if_neg hlt, if_neg (fun h => hlt ((ht.slt_iff hj hu).mp h)), hli]

/-- The bounds close in on the tag. -/
theorem methodSearch_ok (ht : MethodTable h meths tags methods) (hj : tags[j]? = some t)
    (fuel : Nat) {a b : Nat} (haj : a ≤ j) (hjb : j ≤ b) (hb : b < tags.length) {li : Int}
    (hok : methodSearch h meths (tagged t) fuel (2 * (a : Int) + 3) (2 * (b : Int) + 3) = .ok li) :
    li = 2 * (j : Int) + 3 := by
  induction fuel generalizing a b with
  | zero => exact nomatch hok
  | succ fuel ih =>
      by_cases hab : a < b
      · rw [methodSearch_round ht hj hab hb] at hok
        split at hok
        · exact nomatch hok
        · split at hok
          · exact ih haj (by omega) (by omega) hok
          · exact ih (by omega) hjb hb hok
      · unfold methodSearch at hok
        rw [if_neg (by omega)] at hok
        rw [← Except.ok.inj hok]
        omega

/-- The search ends, with enough rounds and no overflow. -/
theorem methodSearch_ends (ht : MethodTable h meths tags methods) (hj : tags[j]? = some t)
    (fuel : Nat) {a b : Nat} (haj : a ≤ j) (hjb : j ≤ b) (hb : b < tags.length)
    (hfuel : b - a < fuel) (hlen : tags.length ≤ 2 ^ 28) :
    ∃ li, methodSearch h meths (tagged t) fuel (2 * (a : Int) + 3) (2 * (b : Int) + 3) = .ok li := by
  induction fuel generalizing a b with
  | zero => omega
  | succ fuel ih =>
      by_cases hab : a < b
      · rw [methodSearch_round ht hj hab hb, if_neg (by omega)]
        split
        · exact ih haj (by omega) (by omega) (by omega)
        · exact ih (by omega) hjb hb (by omega)
      · refine ⟨2 * (a : Int) + 3, ?_⟩
        unfold methodSearch
        rw [if_neg (by omega)]

/-- The search of a table starts between its first and its last tag. -/
theorem searchTable_eq (ht : MethodTable h meths tags methods) (hlen : tags.length < 2 ^ 30)
    (tag : BitVec 64) :
    searchTable h meths tag = methodSearch h meths tag (2 * (tags.length - 1) + 3 + 1)
      (2 * ((0 : Nat) : Int) + 3) (2 * ((tags.length - 1 : Nat) : Int) + 3) := by
  have hpos := ht.nonempty
  have hcount : field h meths 0 = .ok (valInt tags.length) := ht.field ht.words.count
  have hhi : ((tagged (BitVec.ofInt 63 tags.length)).setWidth 32).toInt
      = 2 * ((tags.length - 1 : Nat) : Int) + 3 := by
    rw [BitVec.ofInt_natCast, BitVec.toInt_eq_toNat_of_lt] <;>
      rw [BitVec.toNat_setWidth, toNat_tagged, BitVec.toNat_ofNat] <;> omega
  unfold searchTable
  rw [hcount]
  show methodSearch h meths tag ((((tagged (BitVec.ofInt 63 tags.length)).setWidth 32).toInt).toNat
    + 1) 3 ((tagged (BitVec.ofInt 63 tags.length)).setWidth 32).toInt = _
  rw [hhi]
  congr 1

theorem searchTable_ok (ht : MethodTable h meths tags methods) (hj : tags[j]? = some t)
    (hlen : tags.length < 2 ^ 30) {li : Int} (hok : searchTable h meths (tagged t) = .ok li) :
    li = 2 * (j : Int) + 3 := by
  have hlt := (List.getElem?_eq_some_iff.mp hj).1
  rw [searchTable_eq ht hlen] at hok
  exact methodSearch_ok ht hj _ (by omega) (by omega) (by omega) hok

theorem searchTable_ends (ht : MethodTable h meths tags methods) (hj : tags[j]? = some t)
    (hlen : tags.length ≤ 2 ^ 28) : searchTable h meths (tagged t) = .ok (2 * (j : Int) + 3) := by
  have hlt := (List.getElem?_eq_some_iff.mp hj).1
  obtain ⟨li, hli⟩ : ∃ li, searchTable h meths (tagged t) = .ok li := by
    rw [searchTable_eq ht (by omega)]
    exact methodSearch_ends ht hj _ (by omega) (by omega) (by omega) (by omega) hlen
  rw [hli, searchTable_ok ht hj (by omega) hli]

/-! ## The cache -/

/-- The words the cache can hold: the one the emitter writes, and what
    executions of the instruction leave, on whatever objects. -/
inductive Left : OpcodeWord → Prop where
  | emitted : Left 0#32
  | executed {c c' : Core} : Left (c.mem.code (c.pc + 4#64)) → getpubmet c = .ok c' →
      Left (c'.mem.code (c.pc + 4#64))

/-- The index the search ends with is odd. -/
theorem methodSearch_odd {tag : BitVec 64} (fuel : Nat) {li hi r : Int} (hodd : li % 2 = 1)
    (hok : methodSearch h meths tag fuel li hi = .ok r) : r % 2 = 1 := by
  induction fuel generalizing li hi with
  | zero => exact nomatch hok
  | succ fuel ih =>
      rw [methodSearch] at hok
      split at hok
      · dsimp only at hok
        split at hok
        · exact nomatch hok
        · obtain ⟨v, -, hok⟩ := bind_eq_ok.mp hok
          obtain ⟨w, -, hok⟩ := bind_eq_ok.mp hok
          split at hok
          · exact ih hodd hok
          · refine ih ?_ hok
            split
            · omega
            · omega
      · rw [← Except.ok.inj hok]
        exact hodd

/-- The offsets `GETPUBMET` stores are multiples of two words. -/
theorem stored_mod {li : Int} (hodd : li % 2 = 1) :
    (BitVec.ofInt 32 ((li - 3) * 8)).toNat % 16 = 0 := by
  rw [BitVec.toNat_ofInt]
  omega

/-- `GETPUBMET` writes an odd index to its cache word, or leaves it. -/
theorem getpubmet_code {c c' : Core} (hok : getpubmet c = .ok c') :
    c'.mem.code (c.pc + 4#64) = c.mem.code (c.pc + 4#64) ∨
      ∃ li : Int, li % 2 = 1 ∧
        c'.mem.code (c.pc + 4#64) = BitVec.ofInt 32 ((li - 3) * 8) := by
  obtain ⟨meths, -, hok⟩ := bind_eq_ok.mp hok
  obtain ⟨v1, -, hok⟩ := bind_eq_ok.mp hok
  obtain ⟨mask, -, hok⟩ := bind_eq_ok.mp hok
  obtain ⟨v2, -, hok⟩ := bind_eq_ok.mp hok
  obtain ⟨b, -, hok⟩ := bind_eq_ok.mp hok
  split at hok
  · obtain ⟨v3, -, hok⟩ := bind_eq_ok.mp hok
    rw [← Except.ok.inj hok]
    exact Or.inl rfl
  · obtain ⟨li, hli, hok⟩ := bind_eq_ok.mp hok
    obtain ⟨v4, -, hok⟩ := bind_eq_ok.mp hok
    obtain ⟨v5, -, hli⟩ := bind_eq_ok.mp hli
    obtain ⟨v6, -, hli⟩ := bind_eq_ok.mp hli
    refine Or.inr ⟨li, methodSearch_odd _ (by decide) hli, ?_⟩
    rw [← Except.ok.inj hok]
    exact if_pos rfl

theorem Left.mod {w : OpcodeWord} (hw : Left w) : w.toNat % 16 = 0 := by
  induction hw with
  | emitted => rfl
  | executed _ hok ih =>
      rcases getpubmet_code hok with hsame | ⟨li, hodd, hcode⟩
      · rw [hsame]
        exact ih
      · rw [hcode]
        exact stored_mod hodd

/-- The tag, counted from 0, that a cache word points at in a table with `f`
    slots. -/
def slot (w : OpcodeWord) (f : Nat) : Nat := (w.signExtend 64).toNat / 16 % f

theorem signExtend_mod {w : OpcodeWord} (hw : w.toNat % 16 = 0) :
    (w.signExtend 64).toNat % 16 = 0 := by
  rw [BitVec.toNat_signExtend, BitVec.toNat_setWidth]
  split
  · omega
  · omega

/-- The masked cache word is the byte offset of a slot. -/
theorem masked_offset {w : OpcodeWord} (hw : w.toNat % 16 = 0) {f k : Nat} (hf : f = 2 ^ k)
    (hlt : f < 2 ^ 58) :
    w.signExtend 64 &&& tagged (BitVec.ofInt 63 (f * 64 / 8 - 1))
      = BitVec.ofNat 64 (16 * slot w f) := by
  have hpos : 0 < f := hf ▸ Nat.two_pow_pos k
  have hslot : slot w f < f := Nat.mod_lt _ hpos
  have hmask : (tagged (BitVec.ofInt 63 (f * 64 / 8 - 1))).toNat = 2 ^ (k + 4) - 1 := by
    have hint : (f : Int) * 64 / 8 - 1 = ((8 * f - 1 : Nat) : Int) := by omega
    rw [toNat_tagged, hint, BitVec.ofInt_natCast, BitVec.toNat_ofNat, Nat.pow_add, ← hf]
    omega
  apply BitVec.eq_of_toNat_eq
  rw [BitVec.toNat_and, hmask, Nat.and_two_pow_sub_one_eq_mod, BitVec.toNat_ofNat, Nat.pow_add,
    ← hf, Nat.mod_eq_of_lt (show 16 * slot w f < 2 ^ 64 by omega)]
  have hmod := signExtend_mod hw
  obtain ⟨x, hx⟩ : ∃ x, (w.signExtend 64).toNat = 16 * x :=
    ⟨(w.signExtend 64).toNat / 16, by omega⟩
  unfold slot
  rw [hx, Nat.mul_div_cancel_left _ (by decide), show f * 2 ^ 4 = 16 * f by omega,
    Nat.mul_mod_mul_left]

/-- A stored offset points back at the tag it was stored for. -/
theorem slot_stored {f k : Nat} (hf : f = 2 ^ k) (hle : f ≤ 2 ^ 28) (hj : j < f) :
    slot (BitVec.ofInt 32 ((2 * (j : Int) + 3 - 3) * 8)) f = j := by
  have hint : (2 * (j : Int) + 3 - 3) * 8 = ((16 * j : Nat) : Int) := by omega
  have hk : k ≤ 28 := by
    rw [hf] at hle
    exact (Nat.pow_le_pow_iff_right (by decide)).mp hle
  obtain ⟨q, hq⟩ : f ∣ 2 ^ 28 := hf ▸ Nat.pow_dvd_pow 2 hk
  unfold slot
  rw [hint, BitVec.ofInt_natCast, BitVec.toNat_signExtend, BitVec.toNat_setWidth,
    BitVec.toNat_ofNat, Nat.mod_eq_of_lt (show 16 * j < 2 ^ 32 by omega),
    Nat.mod_eq_of_lt (show 16 * j < 2 ^ 64 by omega)]
  split
  · -- sign extension adds a multiple of the number of slots
    have hdiv : (16 * j + (2 ^ 64 - 2 ^ 32)) / 16 = j + f * (q * (2 ^ 32 - 1)) := by
      rw [← Nat.mul_assoc, ← hq]
      omega
    rw [hdiv, Nat.add_mul_mod_self_left, Nat.mod_eq_of_lt hj]
  · rw [Nat.add_zero, Nat.mul_div_cancel_left _ (by decide), Nat.mod_eq_of_lt hj]

/-- The test of `GETPUBMET` on the cache word `w`. -/
def cacheTest (h : Heap) (meths : Value) (w : OpcodeWord) (tag : BitVec 64) : C Bool := do
  let ofs := w.signExtend 64 &&& (← wordOf (← CamlValue.field h meths 1))
  sameWord (← fieldAtByte h meths 3 ofs) (.word tag)

theorem fieldAtByte_slot (ht : MethodTable h meths tags methods) {n s : Nat} {v : Value}
    (hs : s < 2 ^ 58) (hv : methods[n + 2 * s]? = some v) :
    fieldAtByte h meths n (BitVec.ofNat 64 (16 * s)) = .ok v := by
  have hint : (BitVec.ofNat 64 (16 * s)).toInt = 16 * (s : Int) := by
    rw [BitVec.toInt_eq_toNat_of_lt] <;> rw [BitVec.toNat_ofNat] <;> omega
  have hidx : (n : Int) + 16 * (s : Int) / 8 = ((n + 2 * s : Nat) : Int) := by omega
  unfold fieldAtByte
  rw [hint, if_pos (by omega), hidx]
  exact ht.field hv

/-- What is not an immediate is not a tag. -/
theorem ne_tag_of_isBlock {v : Value} (hv : isBlock v = .ok true) :
    sameWord v (.word (tagged t)) = .ok false := by
  have hodd : (tagged t).getLsbD 0 = true := by
    rw [BitVec.getLsbD, toNat_tagged]
    simp [Nat.testBit_zero]
  have hne : v ≠ .word (tagged t) := by
    rintro rfl
    have hbit : Except.ok (ε := Fault) (!(tagged t).getLsbD 0) = .ok true := hv
    rw [hodd] at hbit
    exact nomatch hbit
  have hdef : v ≠ .undef := by
    rintro rfl
    exact nomatch hv
  unfold sameWord
  rw [if_neg (fun hor => hor.elim hdef (fun e => nomatch e)), decide_eq_false hne]

/-- The cache hits exactly when its slot is that of the tag. -/
theorem cacheTest_eq (ht : MethodTable h meths tags methods) (hj : tags[j]? = some t)
    {w : OpcodeWord} (hw : w.toNat % 16 = 0) (hlt : fitSize tags.length < 2 ^ 58) :
    cacheTest h meths w (tagged t) = .ok (decide (slot w (fitSize tags.length) = j)) := by
  obtain ⟨k, hk⟩ := fitSize_pow ht.nonempty
  have hslot : slot w (fitSize tags.length) < fitSize tags.length :=
    Nat.mod_lt _ (by rw [hk]; exact Nat.two_pow_pos k)
  have hmask : CamlValue.field h meths 1
      = .ok (.word (tagged (BitVec.ofInt 63 (fitSize tags.length * 64 / 8 - 1)))) :=
    ht.field ht.words.mask
  have hpad := ht.padded
  obtain ⟨v, hv⟩ : ∃ v, methods[3 + 2 * slot w (fitSize tags.length)]? = some v :=
    ⟨_, List.getElem?_eq_getElem (by omega)⟩
  have hread : fieldAtByte h meths 3 (BitVec.ofNat 64 (16 * slot w (fitSize tags.length)))
      = .ok v := fieldAtByte_slot ht (n := 3) (by omega) hv
  unfold cacheTest
  rw [hmask]
  show (fieldAtByte h meths 3 (w.signExtend 64 &&& tagged _) >>= fun v => sameWord v _) = _
  rw [masked_offset hw hk hlt, hread]
  show sameWord v (.word (tagged t)) = _
  by_cases hin : slot w (fitSize tags.length) < tags.length
  · -- a tag: the same one only at its own slot
    obtain ⟨u, hu⟩ : ∃ u, tags[slot w (fitSize tags.length)]? = some u :=
      ⟨_, List.getElem?_eq_getElem hin⟩
    have htag := ht.words.tag hu
    rw [Nat.add_comm] at hv
    obtain rfl := Option.some.inj (hv.symm.trans htag)
    unfold sameWord valLong
    rw [if_neg (fun hor => hor.elim (fun e => nomatch e) (fun e => nomatch e))]
    refine congrArg Except.ok (decide_eq_decide.mpr ⟨fun e => ?_, fun e => ?_⟩)
    · have hut : u = t := by
        rw [← untagged_tagged u, Value.word.inj e, untagged_tagged]
      subst hut
      rcases Nat.lt_trichotomy (slot w (fitSize tags.length)) j with hlt' | heq | hlt'
      · exact absurd (ht.increasing hlt' hu hj) (Int.lt_irrefl _)
      · exact heq
      · exact absurd (ht.increasing hlt' hj hu) (Int.lt_irrefl _)
    · rw [e] at hu
      rw [Option.some.inj (hu.symm.trans hj)]
  · have hne : slot w (fitSize tags.length) ≠ j := by
      have := (List.getElem?_eq_some_iff.mp hj).1
      omega
    rw [ne_tag_of_isBlock (ht.words.other hv (by omega) (by omega) (by omega)),
      decide_eq_false hne]

/-! ## The instructions -/

/-- The word the cache of a `GETPUBMET` holds; `pc` is at the tag. -/
def cacheOf (c : Core) : OpcodeWord := c.mem.code (c.pc + 4#64)

/-- A `GETPUBMET` of the tag `t` on an object of the class with the table `meths`. -/
structure Looks (h : Heap) (meths : Value) (t : Long) (c : Core) : Prop where
  heap : c.mem.heap = h
  object : field h c.accu 0 = .ok meths
  tag : BitVec.ofInt 63 c.operand.toInt = t

/-- `GETPUBMET` has found the method `v`; `cache` is the word it leaves. -/
def foundBy (c : Core) (v : Value) (cache : OpcodeWord) : Core :=
  { c with
    pc := c.pc + 4#64 + 4#64, sp := c.accu :: c.sp, accu := v,
    mem := setCode c.mem (c.pc + 4#64) cache }

theorem setCode_self (mem : Mem) (p : CodePtr) : setCode mem p (mem.code p) = mem := by
  unfold setCode
  have hcode : (fun q => if q = p then mem.code p else mem.code q) = mem.code := by
    funext q
    by_cases hq : q = p
    · rw [if_pos hq, hq]
    · rw [if_neg hq]
  rw [hcode]

/-- `GETPUBMET` by its test: a hit reads next to the tag it has found, a miss
    searches and stores the offset. -/
theorem getpubmet_eq {c : Core} (hobj : field c.mem.heap c.accu 0 = .ok meths) {w1 : BitVec 64}
    (hmask : field c.mem.heap meths 1 = .ok (.word w1)) :
    getpubmet c
      = (cacheTest c.mem.heap meths (cacheOf c) (tagged (BitVec.ofInt 63 c.operand.toInt)) >>=
          fun hit =>
            if hit then
              fieldAtByte c.mem.heap meths 2 ((cacheOf c).signExtend 64 &&& w1) >>= fun v =>
                .ok (foundBy c v (cacheOf c))
            else
              searchTable c.mem.heap meths (tagged (BitVec.ofInt 63 c.operand.toInt)) >>= fun li =>
                field c.mem.heap meths (li - 1) >>= fun v =>
                  .ok (foundBy c v (BitVec.ofInt 32 ((li - 3) * 8)))) := by
  have hkeep : ∀ v, foundBy c v (cacheOf c)
      = { c with pc := c.pc + 4#64 + 4#64, sp := c.accu :: c.sp, accu := v } := by
    intro v
    unfold foundBy cacheOf
    rw [setCode_self]
  unfold getpubmet cacheTest
  show (field c.mem.heap c.accu 0 >>= _) = _
  rw [hobj]
  show (field c.mem.heap meths 1 >>= _) = ((field c.mem.heap meths 1 >>= _) >>= _)
  rw [hmask]
  show (fieldAtByte c.mem.heap meths 3 ((cacheOf c).signExtend 64 &&& w1) >>= _)
    = ((fieldAtByte c.mem.heap meths 3 ((cacheOf c).signExtend 64 &&& w1) >>= _) >>= _)
  cases fieldAtByte c.mem.heap meths 3 ((cacheOf c).signExtend 64 &&& w1) with
  | error e => rfl
  | ok v =>
      show (sameWord v _ >>= _) = (sameWord v _ >>= _)
      refine congrArg (fun f => sameWord v _ >>= f) ?_
      funext hit
      cases hit with
      | false => rfl
      | true =>
          show (fieldAtByte c.mem.heap meths 2 ((cacheOf c).signExtend 64 &&& w1) >>= _) = _
          refine congrArg (fun f => fieldAtByte c.mem.heap meths 2 _ >>= f) ?_
          funext v'
          rw [hkeep]
          rfl

/-- A hit reads the method of the slot and leaves the cache. -/
theorem getpubmet_hit (ht : MethodTable h meths tags methods) (hj : tags[j]? = some t) {v : Value}
    (hv : methods[2 * j + 2]? = some v) (hlt : fitSize tags.length < 2 ^ 58) {c : Core}
    (hc : Looks h meths t c) (hw : (cacheOf c).toNat % 16 = 0)
    (hhit : slot (cacheOf c) (fitSize tags.length) = j) :
    getpubmet c = .ok (foundBy c v (cacheOf c)) := by
  obtain ⟨rfl, hobj, rfl⟩ := hc
  obtain ⟨k, hk⟩ := fitSize_pow ht.nonempty
  have hjlt : j < fitSize tags.length :=
    Nat.lt_of_lt_of_le (List.getElem?_eq_some_iff.mp hj).1 (le_fitSize _)
  have hread : fieldAtByte c.mem.heap meths 2 (BitVec.ofNat 64 (16 * j)) = .ok v :=
    fieldAtByte_slot ht (n := 2) (by omega) (by rw [Nat.add_comm]; exact hv)
  rw [getpubmet_eq hobj (ht.field ht.words.mask), cacheTest_eq ht hj hw hlt, hhit,
    decide_eq_true rfl, masked_offset hw hk hlt, hhit]
  show (fieldAtByte c.mem.heap meths 2 (BitVec.ofNat 64 (16 * j)) >>= _) = _
  rw [hread]
  rfl

/-- A miss searches. -/
theorem getpubmet_miss (ht : MethodTable h meths tags methods) (hj : tags[j]? = some t)
    (hlt : fitSize tags.length < 2 ^ 58) {c : Core} (hc : Looks h meths t c)
    (hw : (cacheOf c).toNat % 16 = 0) (hmiss : slot (cacheOf c) (fitSize tags.length) ≠ j) :
    getpubmet c = searchTable h meths (tagged t) >>= fun li => field h meths (li - 1) >>= fun v =>
      .ok (foundBy c v (BitVec.ofInt 32 ((li - 3) * 8))) := by
  obtain ⟨rfl, hobj, rfl⟩ := hc
  rw [getpubmet_eq hobj (ht.field ht.words.mask), cacheTest_eq ht hj hw hlt,
    decide_eq_false hmiss]
  rfl

/-- A `GETPUBMET` and a `GETDYNMET` of the tag `t`, whose method is `v`: both return
    `v`, and the word `GETPUBMET` leaves in its cache makes the next one a hit, which
    returns `v` and leaves the cache alone. -/
structure Lookup (h : Heap) (meths : Value) (t : Long) (v : Value) (c : Core) : Prop where
  returns : ∃ cache, getpubmet c = .ok (foundBy c v cache) ∧ Left cache ∧
    ∀ d, Looks h meths t d → cacheOf d = cache →
      cacheTest h meths (cacheOf d) (tagged t) = .ok true ∧
        getpubmet d = .ok (foundBy d v (cacheOf d))
  dynamic : ∀ d : Core, d.mem.heap = h → d.accu = valLong t →
    (∃ obj, spAt d.sp 0 = .ok obj ∧ field h obj 0 = .ok meths) →
    getdynmet d = .ok { d with accu := v }

/-- Every lookup of a public tag, with every word the cache can hold. -/
def CachedLookup (h : Heap) (meths : Value) (tags : List Long) (methods : List Value) : Prop :=
  ∀ {j : Nat} {t : Long} {v : Value} {c : Core}, tags[j]? = some t →
    methods[2 * j + 2]? = some v → Looks h meths t c → Left (cacheOf c) → Lookup h meths t v c

/-- `GETDYNMET` finds the method of a tag of the class. -/
theorem lookup_dynamic (ht : MethodTable h meths tags methods) (hj : tags[j]? = some t) {v : Value}
    (hv : methods[2 * j + 2]? = some v) (hlen : tags.length ≤ 2 ^ 28) {d : Core}
    (hheap : d.mem.heap = h) (haccu : d.accu = valLong t) {obj : Value}
    (hobj : spAt d.sp 0 = .ok obj) (hmeths : field h obj 0 = .ok meths) :
    getdynmet d = .ok { d with accu := v } := by
  have hidx : 2 * (j : Int) + 3 - 1 = ((2 * j + 2 : Nat) : Int) := by omega
  have hli := searchTable_ends ht hj hlen
  have hfield : field h meths (2 * (j : Int) + 3 - 1) = .ok v := by
    rw [hidx]
    exact ht.field hv
  subst hheap
  unfold getdynmet
  rw [hobj, haccu]
  show (field d.mem.heap obj 0 >>= _) = _
  rw [hmeths]
  show (searchTable d.mem.heap meths (tagged t) >>= _) = _
  rw [hli]
  show (field d.mem.heap meths _ >>= _) = _
  rw [hfield]
  rfl

/-- Up to 2^28 tags, the word left in the cache is found again. -/
theorem cachedLookup (ht : MethodTable h meths tags methods) (hlen : tags.length ≤ 2 ^ 28) :
    CachedLookup h meths tags methods := by
  intro j t v c hj hv hc hleft
  have hf : fitSize tags.length ≤ 2 ^ 28 := fitSize_le hlen
  have hlt : fitSize tags.length < 2 ^ 58 := by omega
  obtain ⟨k, hk⟩ := fitSize_pow ht.nonempty
  have hjlt : j < fitSize tags.length :=
    Nat.lt_of_lt_of_le (List.getElem?_eq_some_iff.mp hj).1 (le_fitSize _)
  -- once the cache points at the tag, every lookup hits
  have hits : ∀ d, Looks h meths t d → (cacheOf d).toNat % 16 = 0 →
      slot (cacheOf d) (fitSize tags.length) = j →
      cacheTest h meths (cacheOf d) (tagged t) = .ok true ∧
        getpubmet d = .ok (foundBy d v (cacheOf d)) := by
    intro d hd hmod hslot
    refine ⟨?_, getpubmet_hit ht hj hv hlt hd hmod hslot⟩
    rw [cacheTest_eq ht hj hmod hlt, hslot, decide_eq_true rfl]
  refine ⟨?_, ?_⟩
  · by_cases hhit : slot (cacheOf c) (fitSize tags.length) = j
    · refine ⟨cacheOf c, getpubmet_hit ht hj hv hlt hc hleft.mod hhit, hleft, ?_⟩
      intro d hd hcache
      refine hits d hd ?_ ?_
      · rw [hcache]
        exact hleft.mod
      · rw [hcache]
        exact hhit
    · have hidx : 2 * (j : Int) + 3 - 1 = ((2 * j + 2 : Nat) : Int) := by omega
      have hfield : field h meths (2 * (j : Int) + 3 - 1) = .ok v := by
        rw [hidx]
        exact ht.field hv
      have hget : getpubmet c
          = .ok (foundBy c v (BitVec.ofInt 32 ((2 * (j : Int) + 3 - 3) * 8))) := by
        rw [getpubmet_miss ht hj hlt hc hleft.mod hhit, searchTable_ends ht hj hlen]
        show (field h meths _ >>= _) = _
        rw [hfield]
        rfl
      have hstored : Left (BitVec.ofInt 32 ((2 * (j : Int) + 3 - 3) * 8)) := by
        have hleft' := Left.executed hleft hget
        rw [show (foundBy c v _).mem.code (c.pc + 4#64) = _ from if_pos rfl] at hleft'
        exact hleft'
      refine ⟨_, hget, hstored, ?_⟩
      intro d hd hcache
      refine hits d hd ?_ ?_
      · rw [hcache]
        exact hstored.mod
      · rw [hcache]
        exact slot_stored hk hf hjlt
  · rintro d hheap haccu ⟨obj, hobj, hmeths⟩
    exact lookup_dynamic ht hj hv hlen hheap haccu hobj hmeths

theorem methodTable_of_built {b tag : Nat} (hbuilt : Built tags true methods)
    (hblock : h.get b = some ⟨tag, methods⟩) (hpos : 0 < tags.length)
    (hinc : ∀ {i j : Nat} {a b : Long}, i < j → tags[i]? = some a → tags[j]? = some b →
      a.toInt < b.toInt)
    (hlen : tags.length ≤ 2 ^ 57) : MethodTable h (.ptr b 0) tags methods := by
  have hfit : fitSize tags.length ≤ 2 ^ 57 := fitSize_le hlen
  obtain ⟨hwords, hpad⟩ := built_tableWords hbuilt hpos (by omega)
  exact ⟨⟨b, tag, rfl, hblock⟩, hwords, hpad rfl, hpos, hinc⟩

/-- **A CACHED LOOKUP IS A SEARCH.**  On every padded table of at most 2^28
    public tags, `GETPUBMET` returns the method before its tag whatever earlier
    executions have left in its cache, and so does `GETDYNMET`. -/
theorem getpubmet_cached {b tag : Nat} (hbuilt : Built tags true methods)
    (hblock : h.get b = some ⟨tag, methods⟩) (hpos : 0 < tags.length)
    (hinc : ∀ {i j : Nat} {a b : Long}, i < j → tags[i]? = some a → tags[j]? = some b →
      a.toInt < b.toInt)
    (hlen : tags.length ≤ 2 ^ 28) : CachedLookup h (.ptr b 0) tags methods :=
  cachedLookup (methodTable_of_built hbuilt hblock hpos hinc (by omega)) hlen

/-- The public tags 0, 1, ... of a class with `n` methods. -/
def firstTags (n : Nat) : List Long := (List.range n).map (BitVec.ofNat 63)

/-- The table of such a class, with no method set, and an object of it. -/
def tableHeap (n : Nat) : Heap :=
  ⟨[some ⟨0, initClass (newTable (firstTags n))⟩, some ⟨248, [.ptr 0 0, valInt 0]⟩]⟩

theorem length_firstTags (n : Nat) : (firstTags n).length = n := by
  unfold firstTags
  rw [List.length_map, List.length_range]

theorem firstTags_getElem {n i : Nat} (hi : i < n) :
    (firstTags n)[i]? = some (BitVec.ofNat 63 i) := by
  unfold firstTags
  rw [List.getElem?_map, List.getElem?_range hi]
  rfl

theorem firstTags_increasing {n : Nat} (hn : n < 2 ^ 62) {i j : Nat} {a b : Long} (hij : i < j)
    (ha : (firstTags n)[i]? = some a) (hb : (firstTags n)[j]? = some b) : a.toInt < b.toInt := by
  have hjn := (List.getElem?_eq_some_iff.mp hb).1
  rw [length_firstTags] at hjn
  rw [firstTags_getElem (by omega)] at ha hb
  rw [← Option.some.inj ha, ← Option.some.inj hb, toInt_count (by omega), toInt_count (by omega)]
  omega

/-- A class with three public methods. -/
theorem getpubmet_cached_three :
    CachedLookup (tableHeap 3) (.ptr 0 0) (firstTags 3) (initClass (newTable (firstTags 3))) :=
  getpubmet_cached (Built.initClass Built.newTable) rfl (by rw [length_firstTags]; decide)
    (firstTags_increasing (by decide)) (by rw [length_firstTags]; decide)

/-- In a table of more than 2^28 tags the offset of the tag at 2^27 does not fit
    the code word: it is read back with the sign of its 32 bits, and the next
    lookup misses. -/
theorem wide_table_misses (obj : Value) (ht : MethodTable h meths tags methods) (hwide : 2 ^ 28 < tags.length)
    (hlen : tags.length < 2 ^ 30) (hj : tags[2 ^ 27]? = some t) {k : OpcodeWord}
    (hk : BitVec.ofInt 63 k.toInt = t) (hobj : field h obj 0 = .ok meths) :
    ¬ CachedLookup h meths tags methods := by
  intro hall
  have hf : fitSize tags.length ≤ 2 ^ 30 := fitSize_le (by omega)
  have hle := le_fitSize tags.length
  obtain ⟨e, he⟩ := fitSize_pow ht.nonempty
  obtain ⟨v, hv⟩ : ∃ v, methods[2 * 2 ^ 27 + 2]? = some v :=
    ⟨_, List.getElem?_eq_getElem (by have := ht.padded; omega)⟩
  -- the instruction as it was emitted
  let c : Core := { pc := 0x1000#64, sp := [], accu := obj, env := valUnit, extraArgs := 0#63,
                    mem := { heap := h, globalData := valUnit, raiseUnhandled := valUnit,
                             code := assemble 0x1000#64 [k, 0#32] } }
  have hc : Looks h meths t c := ⟨rfl, hobj, hk⟩
  have hcache : cacheOf c = 0#32 := rfl
  have hmiss : slot (cacheOf c) (fitSize tags.length) ≠ 2 ^ 27 := by
    have hzero : slot 0#32 (fitSize tags.length) = 0 := Nat.zero_mod _
    rw [hcache, hzero]
    decide
  have hleft : Left (cacheOf c) := hcache ▸ Left.emitted
  obtain ⟨cache, hget, hleft', hnext⟩ := (hall hj hv hc hleft).returns
  rw [getpubmet_miss ht hj (by omega) hc hleft.mod hmiss] at hget
  obtain ⟨li, hli, hget⟩ := bind_eq_ok.mp hget
  obtain ⟨v', -, hget⟩ := bind_eq_ok.mp hget
  obtain rfl := searchTable_ok ht hj hlen hli
  have hcode : BitVec.ofInt 32 ((2 * ((2 ^ 27 : Nat) : Int) + 3 - 3) * 8) = cache := by
    have hmem := congrArg (fun c' : Core => c'.mem.code 0x1004#64) (Except.ok.inj hget)
    exact hmem
  obtain ⟨htest, -⟩ := hnext { c with mem := { c.mem with
    code := assemble 0x1000#64 [k, cache] } } ⟨rfl, hobj, hk⟩ rfl
  have hslot : slot cache (fitSize tags.length) = 2 ^ 27 := by
    rw [show cacheOf _ = cache from rfl, cacheTest_eq ht hj hleft'.mod (by omega)] at htest
    exact of_decide_eq_true (Except.ok.inj htest)
  have hexp : e = 29 ∨ e = 30 := by
    rw [he] at hf hle
    have h1 : e < 31 := (Nat.pow_lt_pow_iff_right (by decide)).mp (Nat.lt_of_le_of_lt hf (by decide))
    have h2 : 28 < e := (Nat.pow_lt_pow_iff_right (by decide)).mp (Nat.lt_of_lt_of_le hwide hle)
    omega
  rw [he, ← hcode] at hslot
  rcases hexp with rfl | rfl
  · exact absurd hslot (by decide)
  · exact absurd hslot (by decide)

/-- On a class with 2^28 + 1 public methods, some lookup leaves a cache word with
    which the next one misses. -/
theorem getpubmet_cached_wide :
    Built (firstTags (2 ^ 28 + 1)) true (initClass (newTable (firstTags (2 ^ 28 + 1)))) ∧
      MethodTable (tableHeap (2 ^ 28 + 1)) (.ptr 0 0) (firstTags (2 ^ 28 + 1))
        (initClass (newTable (firstTags (2 ^ 28 + 1)))) ∧
      ¬ CachedLookup (tableHeap (2 ^ 28 + 1)) (.ptr 0 0) (firstTags (2 ^ 28 + 1))
        (initClass (newTable (firstTags (2 ^ 28 + 1)))) := by
  have hlen := length_firstTags (2 ^ 28 + 1)
  have hbuilt : Built (firstTags (2 ^ 28 + 1)) true
      (initClass (newTable (firstTags (2 ^ 28 + 1)))) := Built.initClass Built.newTable
  have ht : MethodTable (tableHeap (2 ^ 28 + 1)) (.ptr 0 0) (firstTags (2 ^ 28 + 1))
      (initClass (newTable (firstTags (2 ^ 28 + 1)))) :=
    methodTable_of_built hbuilt rfl (by omega) (firstTags_increasing (by omega)) (by omega)
  exact ⟨hbuilt, ht, wide_table_misses (.ptr 1 0) ht (by omega) (by omega)
    (firstTags_getElem (by omega)) (k := BitVec.ofNat 32 (2 ^ 27)) (by decide) rfl⟩

end CamlMethodCache
