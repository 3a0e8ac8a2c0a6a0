import CamlInterp.FuncStackProofs

/-! # The function stack over whole histories

    Any sequence of `func_stack_push`, `func_stack_pop` and `peek` on a new stack,
    against a bounded LIFO list.  The byte size of the array is computed modulo
    2^64, so the bound that the stack keeps is the size of its array only while
    `max_items` is below 2^61. -/

namespace CamlLifo

open CamlValue CamlFuncStack

/-- The operations on a stack of `α`. -/
inductive Op (α : Type) where
  | push (a : α)
  | pop
  | peek

/-- What an operation returns. -/
inductive Answer (α : Type) where
  | status (code : Int)
  | item (a : α)
deriving DecidableEq

/-! ## The bounded list -/

section Abstract

variable {α : Type}

/-- One operation on a list of at most `bound` items; `nothing` stands for no item. -/
def lifoStep (bound : Nat) (nothing : α) : Op α → List α → Answer α × List α
  | .push a, l => if l.length < bound then (.status 0, a :: l) else (.status (-1), l)
  | .pop, [] => (.item nothing, [])
  | .pop, a :: l => (.item a, l)
  | .peek, l => (.item (l.headD nothing), l)

/-- A history of operations. -/
def lifoRun (bound : Nat) (nothing : α) : List (Op α) → List α → List (Answer α) × List α
  | [], l => ([], l)
  | op :: ops, l =>
      let (a, l) := lifoStep bound nothing op l
      let (as, l) := lifoRun bound nothing ops l
      (a :: as, l)

end Abstract

/-! ## The code -/

/-- One call. -/
def call : Op CodePtr → FunctionStack → C (Answer CodePtr × FunctionStack)
  | .push pc, s => do
      let (r, s) ← funcStackPush s pc
      .ok (.status r, s)
  | .pop, s => do
      let (pc, s) ← funcStackPop s
      .ok (.item pc, s)
  | .peek, s => do
      .ok (.item (← CamlFuncStack.peek s), s)

/-- A history of calls. -/
def calls : List (Op CodePtr) → FunctionStack → C (List (Answer CodePtr) × FunctionStack)
  | [], s => .ok ([], s)
  | op :: ops, s => do
      let (a, s) ← call op s
      let (as, s) ← calls ops s
      .ok (a :: as, s)

/-- The stack holds the items of `l`: its counters agree and stay in bounds, its two
    tests say what they mean, and what they refuse changes nothing. -/
structure Holds (maxItems : BitVec 64) (l : List CodePtr) (s : FunctionStack) : Prop where
  items : CamlFuncStack.contents s = l
  nrItems : s.nrItems = s.top
  top : s.top.toNat = l.length
  bound : s.top.toNat ≤ maxItems.toNat
  size : s.curSizeBytes.toNat = s.nrItems.toNat * sizeofCode.toNat
  empty : isEmpty s = true ↔ l = []
  full : isFull s = true ↔ l.length = maxItems.toNat
  refusedPush : isFull s = true → ∀ pc, funcStackPush s pc = .ok (-1, s)
  refusedPop : isEmpty s = true → funcStackPop s = .ok (nullCode, s)

/-- A history of calls on a new stack gives the answers of the bounded list, and
    leaves a stack that holds that list. -/
def Refines (maxItems : BitVec 64) (ops : List (Op CodePtr)) : Prop :=
  ∃ s, calls ops (createFuncStack maxItems)
      = .ok ((lifoRun maxItems.toNat nullCode ops []).1, s) ∧
    Holds maxItems (lifoRun maxItems.toNat nullCode ops []).2 s

variable {maxItems : BitVec 64} {s : FunctionStack} {l : List CodePtr}

/-! ## Below 2^61 items -/

/-- Below the size of the address space the array holds the list. -/
theorem represents_holds (h : Represents s l) (hb : s.maxItems.toNat * 8 < 2 ^ 64) :
    Holds s.maxItems l s := by
  have htop := h.top_eq
  have hbound := h.bound
  refine ⟨h.contents_eq, h.nrItems_eq, htop, by omega, ?_, h.isEmpty_iff, h.isFull_iff,
    fun hf pc => h.push_full (h.isFull_iff.mp hf) pc, fun he => ?_⟩
  · rw [h.size_eq, h.nrItems_eq, BitVec.toNat_mul]
    refine Nat.mod_eq_of_lt ?_
    show s.top.toNat * 8 < 2 ^ 64
    omega
  · obtain rfl := h.isEmpty_iff.mp he
    exact h.pop_empty

/-- **ONE CALL**: it does to the stack what the operation does to the list. -/
theorem represents_call (h : Represents s l) (op : Op CodePtr) :
    ∃ s', call op s = .ok ((lifoStep s.maxItems.toNat nullCode op l).1, s') ∧
      s'.maxItems = s.maxItems ∧
      Represents s' (lifoStep s.maxItems.toNat nullCode op l).2 := by
  cases op with
  | push pc =>
      by_cases hlt : l.length < s.maxItems.toNat
      · have hstep : lifoStep s.maxItems.toNat nullCode (.push pc) l = (.status 0, pc :: l) :=
          if_pos hlt
        obtain ⟨s', hs', hmax, hrep⟩ := h.push_ok hlt pc
        rw [hstep]
        refine ⟨s', ?_, hmax, hrep⟩
        show (funcStackPush s pc >>= _) = _
        rw [hs']
        rfl
      · have hstep : lifoStep s.maxItems.toNat nullCode (.push pc) l = (.status (-1), l) :=
          if_neg hlt
        rw [hstep]
        refine ⟨s, ?_, rfl, h⟩
        show (funcStackPush s pc >>= _) = _
        rw [h.push_full (Nat.le_antisymm h.bound (Nat.le_of_not_lt hlt))]
        rfl
  | pop =>
      cases l with
      | nil =>
          refine ⟨s, ?_, rfl, h⟩
          show (funcStackPop s >>= _) = _
          rw [h.pop_empty]
          rfl
      | cons pc l =>
          obtain ⟨s', hs', hmax, hrep⟩ := h.pop_ok
          refine ⟨s', ?_, hmax, hrep⟩
          show (funcStackPop s >>= _) = _
          rw [hs']
          rfl
  | peek =>
      refine ⟨s, ?_, rfl, h⟩
      show (CamlFuncStack.peek s >>= _) = _
      rw [h.peek_eq]
      rfl

/-- A history of calls, by induction on the history. -/
theorem represents_calls (ops : List (Op CodePtr)) : ∀ {s l}, Represents s l →
    ∃ s', calls ops s = .ok ((lifoRun s.maxItems.toNat nullCode ops l).1, s') ∧
      s'.maxItems = s.maxItems ∧
      Represents s' (lifoRun s.maxItems.toNat nullCode ops l).2 := by
  induction ops with
  | nil => exact fun {s l} h => ⟨s, rfl, rfl, h⟩
  | cons op ops ih =>
      intro s l h
      obtain ⟨t, ht, hmax, hrep⟩ := represents_call h op
      obtain ⟨s', hs', hmax', hrep'⟩ := ih hrep
      rw [hmax] at hs' hmax' hrep'
      refine ⟨s', ?_, hmax', hrep'⟩
      show (call op s >>= _) = _
      rw [ht]
      show (calls ops t >>= _) = _
      rw [hs']
      rfl

theorem refines_below (h : maxItems.toNat * 8 < 2 ^ 64) (ops : List (Op CodePtr)) :
    Refines maxItems ops := by
  obtain ⟨s, hs, hmax, hrep⟩ := represents_calls ops (represents_create h)
  have hmax' : s.maxItems = maxItems := hmax
  have hholds := represents_holds hrep (by rw [hmax']; exact h)
  rw [hmax'] at hholds
  exact ⟨s, hs, hholds⟩

/-! ## From 2^61 items on -/

/-- Filling an array that is smaller than the bound: the push behind its last slot
    is out of range. -/
theorem calls_beyond (pc : CodePtr) (k : Nat) : ∀ {s : FunctionStack},
    s.top.toNat + k = s.stackData.length → s.stackData.length < s.maxItems.toNat →
    calls (List.replicate (k + 1) (.push pc)) s = .error .undefined := by
  have hnotFull : ∀ {s : FunctionStack}, s.top.toNat < s.maxItems.toNat →
      ¬ isFull s = true := by
    intro s hlt hfull
    have heq : s.top = s.maxItems := beq_iff_eq.mp hfull
    rw [heq] at hlt
    exact Nat.lt_irrefl _ hlt
  induction k with
  | zero =>
      intro s htop hlen
      have hpush : funcStackPush s pc = .error .undefined := by
        unfold funcStackPush
        rw [if_neg (hnotFull (by omega)), if_neg (by omega)]
      show ((funcStackPush s pc >>= _) >>= _) = _
      rw [hpush]
      rfl
  | succ k ih =>
      intro s htop hlen
      -- `top` is still below the length of the array, which is below the bound
      obtain ⟨t, hpush, htop', hdata, hmax⟩ : ∃ t, funcStackPush s pc = .ok (0, t) ∧
          t.top = s.top + 1#64 ∧ t.stackData = s.stackData.set s.top.toNat pc ∧
          t.maxItems = s.maxItems := by
        unfold funcStackPush
        rw [if_neg (hnotFull (by omega)), if_pos (by omega)]
        exact ⟨_, rfl, rfl, rfl, rfl⟩
      have hlen' : t.stackData.length = s.stackData.length := by rw [hdata, List.length_set]
      have hnext := ih (s := t)
        (by
          have hlt := s.maxItems.isLt
          rw [htop', hlen']
          bv_omega)
        (by
          rw [hlen', hmax]
          exact hlen)
      rw [List.replicate_succ]
      show ((funcStackPush s pc >>= _) >>= _) = _
      rw [hpush]
      show (calls (List.replicate (k + 1) (.push pc)) _ >>= _) = _
      rw [hnext]
      rfl

theorem create_length (maxItems : BitVec 64) :
    (createFuncStack maxItems).stackData.length = maxItems.toNat % 2 ^ 61 := by
  have hmul : (maxItems * sizeofCode).toNat = maxItems.toNat * 8 % 2 ^ 64 := BitVec.toNat_mul _ _
  unfold createFuncStack
  rw [List.length_replicate, hmul]
  omega

theorem not_refines (h : 2 ^ 61 ≤ maxItems.toNat) : ¬ ∀ ops, Refines maxItems ops := by
  intro hall
  obtain ⟨s, hs, -⟩ := hall (List.replicate (maxItems.toNat % 2 ^ 61 + 1) (.push nullCode))
  have hlen := create_length maxItems
  have hbeyond := calls_beyond nullCode (maxItems.toNat % 2 ^ 61) (s := createFuncStack maxItems)
    ((Nat.zero_add _).trans hlen.symm) (by show _ < maxItems.toNat; omega)
  exact nomatch hs.symm.trans hbeyond

/-- **LIFO**: a new stack is a bounded LIFO list over every history of calls exactly
    when the byte size of its array fits `size_t`. -/
theorem refines_iff (maxItems : BitVec 64) :
    (∀ ops, Refines maxItems ops) ↔ maxItems.toNat < 2 ^ 61 := by
  constructor
  · intro hall
    refine Nat.lt_of_not_le (fun hge => not_refines hge hall)
  · intro hlt ops
    exact refines_below (by omega) ops

/-- With 2^61 items the array has no slot, and the first push is out of range. -/
theorem refines_wrapped :
    calls [.push nullCode] (createFuncStack 0x2000000000000000#64) = .error .undefined ∧
      ¬ ∀ maxItems ops, Refines maxItems ops := by
  constructor
  · rfl
  · intro h
    have hbig : 2 ^ 61 ≤ (0x2000000000000000#64).toNat := by decide
    exact not_refines hbig (h _)

end CamlLifo
