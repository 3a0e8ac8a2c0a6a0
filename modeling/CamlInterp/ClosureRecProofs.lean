import CamlInterp.CurryProofs

/-! # Recursive closures — one block, read from every function in it

    `CLOSUREREC` lays `nfuncs` closures and their shared variables out in one
    block: three words for each function (an infix header, the code pointer and
    the closure info; the first has no infix header), then the variables.
    Functions address each other and the variables relative to their own
    closure, with the offsets `comp_function` assigns. -/

namespace CamlClosureRec

open CellStore ParentChain CamlValue CamlOpcode CamlMachine CamlInstr CamlControl CamlFiber
  CamlEffect CamlCurry

variable {ω : Type}

/-! ## Offsets -/

/-- `Start_env_closinfo(info)`. -/
def startEnvClosinfo (info : BitVec 64) : BitVec 64 := (info <<< 8) >>> 9

/-- `positions pos delta ids` of `comp_function`. -/
def positions {α : Type} (pos delta : Int) : List α → List (α × Int)
  | [] => []
  | id :: rem => (id, pos) :: positions (pos + delta) delta rem

/-- `ce_heap` of `comp_function`. -/
def ceHeap {α : Type} (numDefs recPos : Nat) (freeVars : List α) : List (α × Int) :=
  positions (3 * ((numDefs : Int) - recPos) - 1) 1 freeVars

/-- `ce_rec` of `comp_function`. -/
def ceRec {α : Type} (recPos : Nat) (recVars : List α) : List (α × Int) :=
  positions (-3 * (recPos : Int)) 3 recVars

/-- The start of the environment is read back from a closure info word. -/
theorem startEnv_makeClosinfo {d : Nat} (h : d < 2 ^ 55) :
    startEnvClosinfo (makeClosinfo 0 d) = BitVec.ofNat 64 d := by
  apply BitVec.eq_of_toNat_eq
  unfold startEnvClosinfo makeClosinfo
  rw [BitVec.toNat_ushiftRight, BitVec.toNat_shiftLeft, BitVec.toNat_ofNat, BitVec.toNat_ofNat,
    Nat.shiftLeft_eq, Nat.shiftRight_eq_div_pow]
  omega

/-! ## The block -/

/-- Closure `i` of the block `b`. -/
def closureAt (b i : Nat) : Value := .ptr b (3 * i)

/-- The three words of the `k`-th function of the loop. -/
theorem infixFields_getElem (c : Core) (n i envofs : Nat) {k : Nat} (h : k < n) :
    (infixFields c n i envofs)[3 * k]? = some (.word (makeHeader ((i + k) * 3) infixTag)) ∧
      (infixFields c n i envofs)[3 * k + 1]?
        = some (ofCode (c.codeAt (c.operandAt ((i + k : Nat) : Int)))) ∧
      (infixFields c n i envofs)[3 * k + 2]?
        = some (.word (makeClosinfo 0 (envofs - 3 * (k + 1)))) := by
  induction n generalizing i envofs k with
  | zero => exact absurd h (Nat.not_lt_zero _)
  | succ n ih =>
      cases k with
      | zero => exact ⟨rfl, rfl, rfl⟩
      | succ k =>
          obtain ⟨h0, h1, h2⟩ := ih (i + 1) (envofs - 3) (Nat.lt_of_succ_lt_succ h)
          have hi : i + 1 + k = i + (k + 1) := by omega
          have he : envofs - 3 - 3 * (k + 1) = envofs - 3 * (k + 1 + 1) := by omega
          rw [hi] at h0 h1
          rw [he] at h2
          exact ⟨h0, h1, h2⟩

theorem length_infixFields (c : Core) (n i envofs : Nat) :
    (infixFields c n i envofs).length = 3 * n := by
  induction n generalizing i envofs with
  | zero => rfl
  | succ n ih =>
      show (infixFields c n (i + 1) (envofs - 3)).length + 3 = _
      rw [ih]
      omega

/-- The block of `nfuncs` functions and their variables; `c` is at the first code offset. -/
def recBlock (c : Core) (nfuncs : Nat) (vars : List Value) : List Value :=
  ofCode (c.codeAt (c.operandAt 0)) :: .word (makeClosinfo 0 (nfuncs * 3 - 1)) ::
    infixFields c (nfuncs - 1) 1 (nfuncs * 3 - 1) ++ vars

variable {c : Core} {nfuncs i j : Nat} {vars : List Value}

theorem recBlock_code (h : i < nfuncs) :
    (recBlock c nfuncs vars)[3 * i]? = some (ofCode (c.codeAt (c.operandAt i))) := by
  cases i with
  | zero => rfl
  | succ k =>
      have hk : k < nfuncs - 1 := by omega
      have hget := (infixFields_getElem c (nfuncs - 1) 1 (nfuncs * 3 - 1) hk).2.1
      have hlen := length_infixFields c (nfuncs - 1) 1 (nfuncs * 3 - 1)
      show (infixFields c (nfuncs - 1) 1 (nfuncs * 3 - 1) ++ vars)[3 * k + 1]? = _
      rw [List.getElem?_append_left (by omega), hget, Nat.add_comm 1 k]

/-- The closure info of a function in the block. -/
theorem recBlock_info (h : i < nfuncs) :
    (recBlock c nfuncs vars)[3 * i + 1]?
      = some (.word (makeClosinfo 0 (3 * (nfuncs - i) - 1))) := by
  cases i with
  | zero =>
      show some (Value.word (makeClosinfo 0 (nfuncs * 3 - 1))) = _
      rw [Nat.sub_zero, Nat.mul_comm]
  | succ k =>
      have hk : k < nfuncs - 1 := by omega
      have hget := (infixFields_getElem c (nfuncs - 1) 1 (nfuncs * 3 - 1) hk).2.2
      have hlen := length_infixFields c (nfuncs - 1) 1 (nfuncs * 3 - 1)
      have hofs : nfuncs * 3 - 1 - 3 * (k + 1) = 3 * (nfuncs - (k + 1)) - 1 := by omega
      show (infixFields c (nfuncs - 1) 1 (nfuncs * 3 - 1) ++ vars)[3 * k + 2]? = _
      rw [List.getElem?_append_left (by omega), hget, hofs]

theorem recBlock_header (hi : 0 < i) (h : i < nfuncs) :
    (recBlock c nfuncs vars)[3 * i - 1]? = some (.word (makeHeader (i * 3) infixTag)) := by
  cases i with
  | zero => exact absurd hi (Nat.lt_irrefl _)
  | succ k =>
      have hk : k < nfuncs - 1 := by omega
      have hget := (infixFields_getElem c (nfuncs - 1) 1 (nfuncs * 3 - 1) hk).1
      have hlen := length_infixFields c (nfuncs - 1) 1 (nfuncs * 3 - 1)
      show (infixFields c (nfuncs - 1) 1 (nfuncs * 3 - 1) ++ vars)[3 * k]? = _
      rw [List.getElem?_append_left (by omega), hget, Nat.add_comm 1 k]

theorem recBlock_var (h : 0 < nfuncs) :
    (recBlock c nfuncs vars)[3 * nfuncs - 1 + j]? = vars[j]? := by
  have hlen := length_infixFields c (nfuncs - 1) 1 (nfuncs * 3 - 1)
  have hidx : 3 * nfuncs - 1 + j = 3 * (nfuncs - 1) + j + 1 + 1 := by omega
  rw [hidx]
  show (infixFields c (nfuncs - 1) 1 (nfuncs * 3 - 1) ++ vars)[3 * (nfuncs - 1) + j]? = _
  rw [List.getElem?_append_right (by omega), hlen, Nat.add_sub_cancel_left]

/-- A field of the block, read relative to one of its closures. -/
theorem field_closureAt {h : Heap} {b : Nat} {tag : Nat} {fields : List Value} {n : Int}
    {k : Nat} {x : Value} (hb : h.get b = some ⟨tag, fields⟩) (hn : 3 * (i : Int) + n = k)
    (hk : fields[k]? = some x) : field h (closureAt b i) n = .ok x := by
  obtain ⟨hlt, hx⟩ := List.getElem?_eq_some_iff.mp hk
  simp [field, locate, closureAt, hb, hn, hlt, hx, orUndefined]

/-! ## `CLOSUREREC` -/

/-- The operands of a `CLOSUREREC` and what it captures: `accu`, when there is a
    variable at all, and then the words on top of the stack. -/
structure Captures (nfuncs : Nat) (vars rest : List Value) (m : Machine ω) : Prop where
  nfuncs : m.operand.toInt = nfuncs
  nvars : m.toCore.advance.operand.toInt = vars.length
  stack : (if 0 < vars.length then m.accu :: m.sp else m.sp) = vars ++ rest

/-- The core of `m` at the first code offset of its `CLOSUREREC`. -/
def offsets (m : Machine ω) : Core := m.toCore.advance.advance

variable {rt : Runtime ω} {m m' : Machine ω} {rest : List Value}

/-- What a `CLOSUREREC` of `m` leaves: the block, the closures on the stack, and
    `pc` behind the offsets. -/
structure Built (m : Machine ω) (nfuncs : Nat) (vars rest : List Value) (b : Nat)
    (m' : Machine ω) : Prop where
  pc : m'.pc = (offsets m).pc + BitVec.ofInt 64 (4 * nfuncs)
  accu : m'.accu = closureAt b 0
  sp : m'.sp = (List.range nfuncs).reverse.map (closureAt b) ++ rest
  block : m'.mem.heap.get b = some ⟨closureTag, recBlock (offsets m) nfuncs vars⟩

/-- The size of the block, as long as `nfuncs * 3` is an `int`. -/
theorem Captures.sizes (h : Captures nfuncs vars rest m) (hn : 0 < nfuncs)
    (hfew : nfuncs < 715827883) :
    envOffset m.operand = nfuncs * 3 - 1 ∧
      blockSize m.operand m.toCore.advance.operand = nfuncs * 3 - 1 + vars.length := by
  have hint : (m.operand * 3#32 - 1#32).toInt = ((nfuncs * 3 - 1 : Nat) : Int) := by
    rw [toInt_envOffset, h.nfuncs, Int.bmod_eq_of_le (by omega) (by omega)]
    omega
  have henv : envOffset m.operand = nfuncs * 3 - 1 := by
    unfold envOffset
    rw [mlsize_of_nonneg (by omega), hint]
    rfl
  have hvars : mlsize m.toCore.advance.operand = vars.length := by
    rw [mlsize_of_nonneg (by rw [h.nvars]; omega), h.nvars]
    rfl
  have hlt := BitVec.toInt_lt (x := m.toCore.advance.operand)
  rw [h.nvars] at hlt
  refine ⟨henv, ?_⟩
  unfold blockSize
  rw [henv, hvars]
  omega

theorem Captures.room (h : Captures nfuncs vars rest m) (hn : 0 < nfuncs)
    (hfew : nfuncs < 715827883) : roomForRec m.operand m.toCore.advance.operand = true := by
  obtain ⟨henv, hsize⟩ := h.sizes hn hfew
  unfold roomForRec
  rw [henv, hsize, h.nfuncs, h.nvars]
  simp only [Bool.and_eq_true, decide_eq_true_eq, Int.toNat_natCast]
  omega

/-- The header of an infix pointer says how far it is from the block's start. -/
theorem header_makeHeader {size : Nat} (h : size < 2 ^ 54) :
    (makeHeader size infixTag).toNat % 256 = infixTag ∧
      (makeHeader size infixTag).toNat / 1024 = size := by
  have hlt : size * 1024 + 249 < 2 ^ 64 := by omega
  unfold makeHeader infixTag
  rw [BitVec.toNat_ofNat, Nat.mod_eq_of_lt hlt]
  omega

/-- `Tag_val` and `Wosize_val` of an infix pointer read the word before it. -/
theorem infix_header {h : Heap} {b : Nat} {ofs : Int} {w : BitVec 64} (h0 : ofs ≠ 0)
    (hf : field h (.ptr b ofs) (-1) = .ok (.word w)) :
    tagVal h (.ptr b ofs) = .ok (w.toNat % 256) ∧
      wosizeVal h (.ptr b ofs) = .ok (w.toNat / 1024) := by
  cases ofs with
  | ofNat k =>
      cases k with
      | zero => exact absurd rfl h0
      | succ k => exact ⟨bind_eq_ok.mpr ⟨_, hf, rfl⟩, bind_eq_ok.mpr ⟨_, hf, rfl⟩⟩
  | negSucc k => exact ⟨bind_eq_ok.mpr ⟨_, hf, rfl⟩, bind_eq_ok.mpr ⟨_, hf, rfl⟩⟩

/-- The layout of a block of recursive closures `b` in the memory of `m'`, as
    its users read it with `env` set to one of the closures. -/
structure Layout (code : Nat → CodePtr) (nfuncs : Nat) (vars : List Value) (b : Nat)
    (h : Heap) : Prop where
  /-- the code of closure `i` is at the `i`-th offset -/
  code : ∀ i < nfuncs, codeVal h (closureAt b i) = .ok (code i)
  /-- `OFFSETCLOSURE` with the position of `comp_function` finds the others -/
  offsetclosure : ∀ i < nfuncs, ∀ k < nfuncs, ∀ c : Core, c.env = closureAt b i →
    c.operand.toInt = 3 * ((k : Int) - i) →
    offsetclosureOperand c = .ok { c.advance with accu := closureAt b k }
  /-- `ENVACC` with the position of `comp_function` finds the variables -/
  envacc : ∀ i < nfuncs, ∀ (j : Nat) v, vars[j]? = some v → ∀ c : Core, c.mem.heap = h →
    c.env = closureAt b i → c.operand.toInt = 3 * ((nfuncs : Int) - i) - 1 + j →
    envaccOperand c = .ok { c.advance with accu := v }
  /-- the GC finds where the environment starts -/
  startEnv : ∀ i < nfuncs, ∃ info, field h (closureAt b i) 1 = .ok (.word info) ∧
    startEnvClosinfo info = BitVec.ofNat 64 (3 * (nfuncs - i) - 1)
  /-- and gets back from an infix pointer to the start of the block -/
  infixHeader : ∀ i, 0 < i → i < nfuncs → tagVal h (closureAt b i) = .ok infixTag ∧
    wosizeVal h (closureAt b i) = .ok (3 * i) ∧
    ptrAdd (closureAt b i) (-(3 * (i : Int))) = .ok (closureAt b 0)

/-- The block that has been built is laid out as it is read. -/
theorem Built.layout {b : Nat} (h : Built m nfuncs vars rest b m') (hn : nfuncs < 2 ^ 31) :
    Layout (fun i => (offsets m).codeAt ((offsets m).operandAt i)) nfuncs vars b m'.mem.heap := by
  refine ⟨?_, ?_, ?_, ?_, ?_⟩
  · intro i hi
    have hf : field m'.mem.heap (closureAt b i) 0 = .ok _ :=
      field_closureAt (k := 3 * i) h.block (by omega) (recBlock_code hi)
    unfold codeVal
    rw [hf]
    rfl
  · intro i _ k _ c henv hop
    unfold offsetclosureOperand offsetclosure
    have hadd : ptrAdd c.advance.env c.operand.toInt = .ok (closureAt b k) := by
      show ptrAdd c.env _ = _
      rw [henv, hop]
      have hsum : 3 * (i : Int) + 3 * ((k : Int) - i) = 3 * k := by omega
      show Except.ok (Value.ptr b _) = _
      rw [hsum]
      rfl
    rw [hadd]
    rfl
  · intro i hi j v hv c hheap henv hop
    have hf : field m'.mem.heap (closureAt b i) c.operand.toInt = .ok v :=
      field_closureAt (k := 3 * nfuncs - 1 + j) h.block (by rw [hop]; omega)
        (by rw [recBlock_var (by omega)]; exact hv)
    unfold envaccOperand CamlInstr.envacc
    rw [← hheap, ← henv] at hf
    have hf' : field c.advance.mem.heap c.advance.env c.operand.toInt = .ok v := hf
    rw [hf']
    rfl
  · intro i hi
    refine ⟨_, field_closureAt (k := 3 * i + 1) h.block (by omega) (recBlock_info hi), ?_⟩
    exact startEnv_makeClosinfo (by omega)
  · intro i hpos hi
    have hf : field m'.mem.heap (closureAt b i) (-1) = .ok _ :=
      field_closureAt (k := 3 * i - 1) h.block (by omega) (recBlock_header hpos hi)
    obtain ⟨htag, hsize⟩ := header_makeHeader (show i * 3 < 2 ^ 54 by omega)
    obtain ⟨htag', hsize'⟩ := infix_header (show 3 * (i : Int) ≠ 0 by omega) hf
    refine ⟨?_, ?_, ?_⟩
    · exact htag'.trans (congrArg Except.ok htag)
    · rw [Nat.mul_comm, ← hsize]
      exact hsize'
    · have hback : 3 * (i : Int) + -(3 * (i : Int)) = 3 * ((0 : Nat) : Int) := by omega
      show Except.ok (Value.ptr b _) = _
      rw [hback]
      rfl

end CamlClosureRec
