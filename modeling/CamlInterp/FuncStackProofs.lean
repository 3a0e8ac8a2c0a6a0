import CamlInterp.ValueProofs

/-! # The function stack

    `function_stack_t` of `interp.c`: a bounded array of code pointers with
    three redundant counters.  `Represents s l` says that the counters agree
    and that the used part of the array spells the list `l`, top first; every
    operation is specified on `l`. -/

namespace CamlFuncStack

open CamlValue

/-- `function_stack_t`. -/
structure FunctionStack where
  stackData : List CodePtr
  nrItems : BitVec 64
  maxItems : BitVec 64
  curSizeBytes : BitVec 64
  top : BitVec 64

/-- `sizeof(code_t)`. -/
def sizeofCode : BitVec 64 := 8#64

/-- `create_func_stack(max_items)`, when both `malloc`s succeed. -/
def createFuncStack (maxItems : BitVec 64) : FunctionStack where
  stackData := List.replicate ((maxItems * sizeofCode).toNat / 8) nullCode
  nrItems := 0#64
  maxItems := maxItems
  curSizeBytes := 0#64
  top := 0#64

def isEmpty (s : FunctionStack) : Bool := s.nrItems == 0#64

def isFull (s : FunctionStack) : Bool := s.top == s.maxItems

/-- `peek`: the top entry, or 0 with a message when there is none. -/
def peek (s : FunctionStack) : C CodePtr :=
  if isEmpty s then .ok nullCode
  else orUndefined s.stackData[(s.top - 1#64).toNat]?

/-- `func_stack_push`: 0 on success, -1 with a message on a full stack. -/
def funcStackPush (s : FunctionStack) (pc : CodePtr) : C (Int × FunctionStack) :=
  if isFull s then .ok (-1, s)
  else if s.top.toNat < s.stackData.length then
    .ok (0, { s with
      stackData := s.stackData.set s.top.toNat pc, top := s.top + 1#64,
      nrItems := s.nrItems + 1#64, curSizeBytes := s.curSizeBytes + sizeofCode })
  else .error .undefined

/-- `func_stack_pop`: the entry removed, or 0 with a message. -/
def funcStackPop (s : FunctionStack) : C (CodePtr × FunctionStack) :=
  if isEmpty s then .ok (nullCode, s)
  else do
    let top := s.top - 1#64
    let pc ← orUndefined s.stackData[top.toNat]?
    .ok (pc, { s with
      top := top, nrItems := s.nrItems - 1#64,
      curSizeBytes := s.curSizeBytes - sizeofCode })

/-- The counters agree, stay within the array, and its used part is `l`. -/
structure Represents (s : FunctionStack) (l : List CodePtr) : Prop where
  top_eq : s.top.toNat = l.length
  nrItems_eq : s.nrItems = s.top
  size_eq : s.curSizeBytes = s.top * sizeofCode
  bound : l.length ≤ s.maxItems.toNat
  room : s.maxItems.toNat ≤ s.stackData.length
  contents : s.stackData.take l.length = l.reverse

/-- The entries of the stack, top first. -/
def contents (s : FunctionStack) : List CodePtr := (s.stackData.take s.nrItems.toNat).reverse

variable {s : FunctionStack} {l : List CodePtr} {pc : CodePtr}

theorem Represents.contents_eq (h : Represents s l) : CamlFuncStack.contents s = l := by
  unfold CamlFuncStack.contents
  rw [h.nrItems_eq, h.top_eq, h.contents, List.reverse_reverse]

/-- A new stack is empty, provided its byte size fits `size_t`. -/
theorem represents_create {maxItems : BitVec 64} (h : maxItems.toNat * 8 < 2 ^ 64) :
    Represents (createFuncStack maxItems) [] := by
  refine ⟨rfl, rfl, rfl, Nat.zero_le _, ?_, rfl⟩
  simp only [createFuncStack, sizeofCode, List.length_replicate, BitVec.toNat_mul]
  rw [show (8#64).toNat = 8 from rfl, Nat.mod_eq_of_lt h]
  omega

theorem Represents.isEmpty_iff (h : Represents s l) : isEmpty s = true ↔ l = [] := by
  unfold isEmpty
  rw [beq_iff_eq, h.nrItems_eq, ← List.length_eq_zero_iff, ← h.top_eq]
  constructor
  · intro h0; rw [h0]; rfl
  · intro h0; exact BitVec.eq_of_toNat_eq h0

theorem Represents.isFull_iff (h : Represents s l) :
    isFull s = true ↔ l.length = s.maxItems.toNat := by
  unfold isFull
  rw [beq_iff_eq, ← h.top_eq]
  constructor
  · intro h0; rw [h0]
  · intro h0; exact BitVec.eq_of_toNat_eq h0

/-- The word under the top is the head of the list. -/
theorem Represents.at_top (h : Represents s (pc :: l)) :
    (s.top - 1#64).toNat = l.length ∧ s.stackData[l.length]? = some pc := by
  have htop := h.top_eq
  rw [List.length_cons] at htop
  refine ⟨by bv_omega, ?_⟩
  have hget : (s.stackData.take (pc :: l).length)[l.length]?
      = (pc :: l).reverse[l.length]? := by rw [h.contents]
  rw [List.getElem?_take_of_lt (by simp)] at hget
  rw [hget]
  simp

/-- `peek` reads the head, or 0. -/
theorem Represents.peek_eq (h : Represents s l) : peek s = .ok (l.headD nullCode) := by
  unfold peek
  cases l with
  | nil => rw [if_pos (h.isEmpty_iff.mpr rfl)]; rfl
  | cons pc l =>
      obtain ⟨htop, hget⟩ := h.at_top
      rw [if_neg (fun he => nomatch h.isEmpty_iff.mp he), htop, hget]
      rfl

/-- A refused push changes nothing. -/
theorem Represents.push_full (h : Represents s l) (hfull : l.length = s.maxItems.toNat)
    (pc : CodePtr) : funcStackPush s pc = .ok (-1, s) := by
  unfold funcStackPush
  rw [if_pos (h.isFull_iff.mpr hfull)]

/-- An accepted push is `cons`. -/
theorem Represents.push_ok (h : Represents s l) (hlt : l.length < s.maxItems.toNat)
    (pc : CodePtr) :
    ∃ s', funcStackPush s pc = .ok (0, s') ∧ s'.maxItems = s.maxItems ∧
      Represents s' (pc :: l) := by
  have hroom := h.room
  have htop := h.top_eq
  have hidx : l.length < s.stackData.length := by omega
  unfold funcStackPush
  rw [if_neg (fun hf => Nat.ne_of_lt hlt (h.isFull_iff.mp hf)), htop, if_pos hidx]
  have hmax := s.maxItems.isLt
  refine ⟨_, rfl, rfl, ?_, ?_, ?_, hlt, ?_, ?_⟩
  · show (s.top + 1#64).toNat = l.length + 1
    bv_omega
  · show s.nrItems + 1#64 = s.top + 1#64
    rw [h.nrItems_eq]
  · show s.curSizeBytes + sizeofCode = (s.top + 1#64) * sizeofCode
    rw [h.size_eq, BitVec.add_mul, BitVec.one_mul]
  · show s.maxItems.toNat ≤ (s.stackData.set l.length pc).length
    rw [List.length_set]
    exact hroom
  · show (s.stackData.set l.length pc).take (l.length + 1) = (pc :: l).reverse
    rw [List.take_add_one, List.getElem?_set_self hidx, List.take_set_of_le (Nat.le_refl _),
      h.contents]
    simp

/-- A refused pop changes nothing. -/
theorem Represents.pop_empty (h : Represents s []) :
    funcStackPop s = .ok (nullCode, s) := by
  unfold funcStackPop
  rw [if_pos (h.isEmpty_iff.mpr rfl)]

/-- An accepted pop removes the head. -/
theorem Represents.pop_ok (h : Represents s (pc :: l)) :
    ∃ s', funcStackPop s = .ok (pc, s') ∧ s'.maxItems = s.maxItems ∧
      Represents s' l := by
  obtain ⟨htop, hget⟩ := h.at_top
  have hlen := h.top_eq
  have hbound := h.bound
  rw [List.length_cons] at hlen hbound
  unfold funcStackPop
  rw [if_neg (fun he => nomatch h.isEmpty_iff.mp he)]
  simp only [htop, hget, orUndefined, bind, Except.bind]
  refine ⟨_, rfl, rfl, htop, ?_, ?_, by show l.length ≤ s.maxItems.toNat; omega, h.room, ?_⟩
  · show s.nrItems - 1#64 = s.top - 1#64
    rw [h.nrItems_eq]
  · show s.curSizeBytes - sizeofCode = (s.top - 1#64) * sizeofCode
    rw [h.size_eq]
    grind [sizeofCode]
  · have hcont := congrArg (List.take l.length) h.contents
    rw [List.take_take, List.length_cons, Nat.min_eq_left (Nat.le_succ _)] at hcont
    show s.stackData.take l.length = l.reverse
    rw [hcont]
    simp

end CamlFuncStack
