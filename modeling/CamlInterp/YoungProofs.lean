import CamlInterp.ThreadProofs

/-! # Requests to the minor heap

    `Alloc_small` asserts that it is asked for at most `Max_young_wosize` words.
    Each instruction that allocates computes its size in its own way; those with a
    size that has no bound go to `caml_alloc_shr` from some size on, `GRAB` apart. -/

namespace CamlYoung

open CellStore CamlValue CamlOpcode CamlMachine CamlControl CamlStep CamlCall CamlEmit CamlThread

variable {ω : Type}

/-! ## Requests -/

/-- A request for a block, to `Alloc_small` or to `caml_alloc_shr`. -/
inductive Request where
  | young (wosize tag : Nat)
  | major (wosize tag : Nat)

/-- What `Alloc_small` asserts; and the major heap is for what is larger. -/
def Request.InBounds : Request → Prop
  | .young wosize tag => 1 ≤ wosize ∧ wosize ≤ maxYoungWosize ∧ tag < 256
  | .major wosize _ => maxYoungWosize < wosize

/-- The request carried out, then `k`. -/
def Request.carryOut (r : Request) (rt : Runtime ω) (m : Machine ω)
    (k : Value → Machine ω → C (Ctl (Machine ω))) : C (Ctl (Machine ω)) :=
  match r with
  | .young wosize tag => allocSmall rt m wosize tag k
  | .major wosize tag => camlAllocShr m wosize tag k

def either (small : Bool) (wosize tag : Nat) : Request :=
  if small then .young wosize tag else .major wosize tag

/-- The request of an instruction, with `pc` behind its opcode; `none` when it
    allocates nothing. -/
def requestOf (op : Opcode) (m : Machine ω) : Option Request :=
  match op with
  | .GRAB =>
      if m.operand.toInt ≤ m.extraArgs.toInt then none
      else some (.young ((1 + m.extraArgs).toNat + 3) closureTag)
  | .CLOSURE =>
      let nvars := m.operand
      some (either (nvars.toInt ≤ maxYoungWosize - 2) (mlsize (2#32 + nvars)) closureTag)
  | .CLOSUREREC =>
      let blksize := blockSize m.operand m.toCore.advance.operand
      some (either (blksize ≤ maxYoungWosize) blksize closureTag)
  | .MAKEBLOCK =>
      let wosize := mlsize m.operand
      let tag := m.toCore.advance.operand.toNat
      some (either (wosize ≤ maxYoungWosize) wosize tag)
  | .MAKEBLOCK1 => some (.young 1 m.operand.toNat)
  | .MAKEBLOCK2 => some (.young 2 m.operand.toNat)
  | .MAKEBLOCK3 => some (.young 3 m.operand.toNat)
  | .MAKEFLOATBLOCK =>
      let size := mlsize m.operand
      some (either (size ≤ maxYoungWosize) size doubleArrayTag)
  | .GETFLOATFIELD =>
      match field m.mem.heap m.accu m.operand.toInt with
      | .ok _ => some (.young 1 doubleTag)
      | .error _ => none
  | .PERFORM =>
      -- without a parent fiber it raises `Unhandled`
      match m.dom.pool.get m.dom.currentStack with
      | some i => if i.parent.isSome then some (.young 1 contTag) else none
      | none => none
  | _ => none

/-- The instructions that allocate; the size of a block is a length. -/
def Allocates : Instruction → Prop
  | .Kmakeblock n _ => 0 ≤ n
  | .Kgrab _ | .Kclosure _ _ | .Kclosurerec _ _ | .Kmakefloatblock _ | .Kgetfloatfield _
  | .Kperform => True
  | _ => False

/-- An operand, as the `int` that is read back. -/
def cInt (n : Int) : Int := n.bmod 4294967296

/-- The instruction asks for what `Alloc_small` accepts: a `GRAB` has its arguments or
    fewer than 254, no size wraps around to 0 (or below, with the two words that
    `CLOSURE` adds in an `int`), and the tag of a small block is a byte. -/
def Accommodated (extraArgs : Int) : Instruction → Prop
  | .Kgrab n => cInt n ≤ extraArgs ∨ extraArgs ≤ 252
  | .Kclosure _ n => -1 ≤ cInt n
  | .Kclosurerec lbls n => cInt (3 * lbls.length - 1) + cInt n ≠ 0
  | .Kmakeblock n t =>
      n = 0 ∨ cInt n ≠ 0 ∧ (0 < cInt n → cInt n ≤ 256 → t % 4294967296 < 256)
  | .Kmakefloatblock n => n = 0 ∨ cInt n ≠ 0
  | _ => True

/-! ## Operands as they are written -/

variable {e : Emitter} {instr : Instruction} {ws : List OpcodeWord} {op : Opcode}

/-- Integers among the operands, before any label, are never patched. -/
theorem outOperands_ints (hv : Valid e) (ns : List Int) (os : List Operand) {j : Nat} {n : Int}
    (hj : ns[j]? = some n) :
    Fixed ((ns.map Operand.int ++ os).foldl Emitter.outOperand e) (e.outBuffer.length + j)
      (BitVec.ofInt 32 n) := by
  induction ns generalizing e j with
  | nil => cases hj
  | cons n0 ns ih =>
      have hg := (Emitter.Grows.refl e).outInt n0
      cases j with
      | zero =>
          obtain rfl := Option.some.inj hj
          exact (outInt_fixed hv n0).grows (hv.grows hg)
            ((Emitter.Grows.refl _).outOperands _)
      | succ j =>
          have hfix := ih (hv.grows hg) (j := j) hj
          rw [length_outInt, Nat.add_assoc, Nat.add_comm 1 j] at hfix
          exact hfix

/-- The opcode and the integers behind it, as they are written. -/
theorem writes_ints {ns : List Int} {os : List Operand} (h : Writes instr ws)
    (henc : encoding instr = some ⟨opNum op, ns.map Operand.int ++ os⟩) :
    ws[0]? = some op.code ∧ ∀ j n, ns[j]? = some n → ws[j + 1]? = some (BitVec.ofInt 32 n) := by
  obtain ⟨before, e, e', hbefore, hinstr, -, hfixed⟩ := h
  have hv := emit_valid hbefore
  have hout : e' = e.outInstr ⟨opNum op, ns.map Operand.int ++ os⟩ := by
    unfold Emitter.emitInstr at hinstr
    split at hinstr
    · cases henc
    · rw [henc] at hinstr
      exact (Except.ok.inj hinstr).symm
  subst hout
  constructor
  · have hfirst := hfixed 0 _ (outInstr_fixed hv _).1
    rw [wordOfBytes_opNum] at hfirst
    exact hfirst
  · intro j n hj
    have hg := (Emitter.Grows.refl e).out (opNum op)
    have hfix := outOperands_ints (hv.grows hg) ns os hj
    rw [length_out, Nat.add_assoc, Nat.add_comm 1 j] at hfix
    exact hfixed (j + 1) _ hfix

/-! ## The requests are what is carried out -/

/-- The instruction carries out its request and goes on, or allocates nothing: then
    it does not ask for collections. -/
def CarriesOut (op : Opcode) (m : Machine ω) : Prop :=
  (∀ r, requestOf op m = some r → ∃ m' k, ∀ rt act,
    CamlUpstream.exec rt act op m = r.carryOut rt m' k) ∧
  (requestOf op m = none → ∀ (rt : Runtime ω) act rounds,
    CamlUpstream.exec { rt with gcRounds := rounds } act op m = CamlUpstream.exec rt act op m)

variable {m : Machine ω}

theorem allocSmall_carries (rt : Runtime ω) (m : Machine ω) (wosize tag : Nat)
    (k : Value → Machine ω → C (Ctl (Machine ω))) :
    allocSmall rt m wosize tag k = (Request.young wosize tag).carryOut rt m k := rfl

theorem allocEither_carries (rt : Runtime ω) (m : Machine ω) (small : Bool) (wosize tag : Nat)
    (k : Value → Machine ω → C (Ctl (Machine ω))) :
    allocEither rt m small wosize tag k = (either small wosize tag).carryOut rt m k := by
  cases small with
  | true => rfl
  | false => rfl

theorem CarriesOut.of_some {r : Request} {m' : Machine ω}
    {k : Value → Machine ω → C (Ctl (Machine ω))} (hr : requestOf op m = some r)
    (h : ∀ rt act, CamlUpstream.exec rt act op m = r.carryOut rt m' k) : CarriesOut op m := by
  refine ⟨fun r' hr' => ?_, fun hn => absurd (hr.symm.trans hn) (Option.some_ne_none r)⟩
  obtain rfl := Option.some.inj (hr.symm.trans hr')
  exact ⟨m', k, h⟩

theorem CarriesOut.of_none (hr : requestOf op m = none)
    (h : ∀ (rt : Runtime ω) act rounds,
      CamlUpstream.exec { rt with gcRounds := rounds } act op m = CamlUpstream.exec rt act op m) :
    CarriesOut op m :=
  ⟨fun r hr' => absurd (hr'.symm.trans hr) (Option.some_ne_none r), fun _ => h⟩

/-- `GRAB` allocates the words `requestOf` says. -/
theorem grab_carries (m : Machine ω) : CarriesOut .GRAB m := by
  by_cases hle : m.operand.toInt ≤ m.extraArgs.toInt
  · refine .of_none (if_pos hle) fun rt act rounds => ?_
    show grab _ m = grab rt m
    unfold grab
    exact (if_pos hle).trans (if_pos hle).symm
  · have hr : requestOf .GRAB m = some (.young ((1 + m.extraArgs).toNat + 3) closureTag) :=
      if_neg hle
    apply CarriesOut.of_some hr
    intro rt act
    show grab rt m = _
    unfold grab
    exact (if_neg hle).trans (allocSmall_carries _ _ _ _ _)

theorem closure_carries (m : Machine ω) : CarriesOut .CLOSURE m :=
  .of_some rfl fun _ _ => allocEither_carries _ _ _ _ _ _

theorem closurerec_carries (m : Machine ω) : CarriesOut .CLOSUREREC m :=
  .of_some rfl fun _ _ => allocEither_carries _ _ _ _ _ _

theorem makeblock_carries (m : Machine ω) : CarriesOut .MAKEBLOCK m :=
  .of_some rfl fun _ _ => allocEither_carries _ _ _ _ _ _

theorem makefloatblock_carries (m : Machine ω) : CarriesOut .MAKEFLOATBLOCK m :=
  .of_some rfl fun _ _ => allocEither_carries _ _ _ _ _ _

/-- `GETFLOATFIELD` does. -/
theorem getfloatfield_carries (m : Machine ω) : CarriesOut .GETFLOATFIELD m := by
  cases hd : field m.mem.heap m.accu m.operand.toInt with
  | ok d =>
      have hr : requestOf .GETFLOATFIELD m = some (.young 1 doubleTag) := by
        unfold requestOf
        rw [hd]
      apply CarriesOut.of_some hr
      intro rt act
      show (field m.mem.heap m.accu m.operand.toInt >>= _) = _
      rw [hd]
      dsimp only [bind, Except.bind]
      exact allocSmall_carries _ _ _ _ _
  | error f =>
      refine .of_none ?_ fun rt act rounds => ?_
      · unfold requestOf
        rw [hd]
      · show (field m.mem.heap m.accu m.operand.toInt >>= _) =
          (field m.mem.heap m.accu m.operand.toInt >>= _)
        rw [hd]
        rfl

/-- `PERFORM` does, before it touches the fibers. -/
theorem perform_carries (m : Machine ω) : CarriesOut .PERFORM m := by
  cases hi : m.dom.pool.get m.dom.currentStack with
  | none =>
      refine .of_none ?_ fun rt act rounds => ?_
      · unfold requestOf
        rw [hi]
      · show (orUndefined (m.dom.pool.get m.dom.currentStack) >>= _) =
          (orUndefined (m.dom.pool.get m.dom.currentStack) >>= _)
        rw [hi]
        rfl
  | some i =>
      obtain ⟨words, hval, hexn, heff, parent, size⟩ := i
      cases parent with
      | none =>
          refine .of_none ?_ fun rt act rounds => ?_
          · unfold requestOf
            rw [hi]
            rfl
          · show (orUndefined (m.dom.pool.get m.dom.currentStack) >>= _) =
              (orUndefined (m.dom.pool.get m.dom.currentStack) >>= _)
            rw [hi]
            rfl
      | some p =>
          have hr : requestOf .PERFORM m = some (.young 1 contTag) := by
            unfold requestOf
            rw [hi]
            rfl
          apply CarriesOut.of_some hr
          intro rt act
          show (orUndefined (m.dom.pool.get m.dom.currentStack) >>= _) = _
          rw [hi]
          dsimp only [bind, Except.bind, orUndefined]
          exact allocSmall_carries _ _ _ _ _

/-- `MAKEBLOCK1` to `MAKEBLOCK3`. -/
theorem makeblockN_carries {n : Nat} (hr : requestOf op m = some (.young n m.operand.toNat))
    (hexec : ∀ (rt : Runtime ω) act, CamlUpstream.exec rt act op m = makeblockN rt n m) :
    CarriesOut op m := by
  apply CarriesOut.of_some hr
  intro rt act
  rw [hexec]
  unfold makeblockN makeblockOf
  exact allocEither_carries rt _ true n m.operand.toNat _

/-! ## Sizes -/

/-- A size that decides where the block is allocated. -/
theorem either_inBounds_iff (wosize : Nat) {tag : Nat} :
    (either (wosize ≤ maxYoungWosize) wosize tag).InBounds ↔
      wosize ≠ 0 ∧ (wosize ≤ 256 → tag < 256) := by
  by_cases hle : wosize ≤ maxYoungWosize
  · rw [decide_eq_true hle]
    show 1 ≤ wosize ∧ wosize ≤ maxYoungWosize ∧ tag < 256 ↔ _
    unfold maxYoungWosize at hle ⊢
    omega
  · rw [decide_eq_false hle]
    show maxYoungWosize < wosize ↔ _
    unfold maxYoungWosize at hle ⊢
    omega

/-- An `mlsize_t` is an `int` modulo 2^64. -/
theorem mlsize_emod (n : OpcodeWord) : (mlsize n : Int) = n.toInt % 18446744073709551616 := by
  have hle := BitVec.le_toInt n
  have hlt := BitVec.toInt_lt (x := n)
  by_cases h : 0 ≤ n.toInt
  · rw [mlsize_of_nonneg h]
    omega
  · rw [mlsize_eq_of_neg (by omega)]
    omega

theorem mlsize_eq_zero (n : OpcodeWord) : mlsize n = 0 ↔ n.toInt = 0 := by
  have hsize := mlsize_emod n
  have hle := BitVec.le_toInt n
  have hlt := BitVec.toInt_lt (x := n)
  omega

theorem mlsize_le (n : OpcodeWord) : mlsize n ≤ 256 ↔ 0 ≤ n.toInt ∧ n.toInt ≤ 256 := by
  have hsize := mlsize_emod n
  have hle := BitVec.le_toInt n
  have hlt := BitVec.toInt_lt (x := n)
  omega

/-- An operand read back. -/
theorem toInt_operand (n : Int) : (BitVec.ofInt 32 n).toInt = cInt n := BitVec.toInt_ofInt n

theorem toNat_tag (t : Int) : (BitVec.ofInt 32 t).toNat < 256 ↔ t % 4294967296 < 256 := by
  rw [BitVec.toNat_ofInt]
  omega

theorem cInt_range (n : Int) : -2147483648 ≤ cInt n ∧ cInt n < 2147483648 := by
  rw [← toInt_operand]
  exact ⟨BitVec.le_toInt _, BitVec.toInt_lt⟩

/-- The words held at `pc` are the operands of the instruction there. -/
structure Operands (m : Machine ω) (op : Opcode) (ns : List Int) : Prop where
  opcode : m.mem.code m.pc = op.code
  first : ∀ {n}, ns[0]? = some n → m.mem.code (m.pc + 4#64) = BitVec.ofInt 32 n
  second : ∀ {n}, ns[1]? = some n → m.mem.code (m.pc + 4#64 + 4#64) = BitVec.ofInt 32 n

/-- The operands in memory are those that were written. -/
theorem Operands.of_writes {ns : List Int} (os : List Operand) (hw : Writes instr ws)
    (hheld : HeldAt m.mem.code m.pc ws)
    (henc : encoding instr = some ⟨opNum op, ns.map Operand.int ++ os⟩) : Operands m op ns := by
  obtain ⟨hop, hints⟩ := writes_ints hw henc
  refine ⟨?_, fun {n} hn => ?_, fun {n} hn => ?_⟩
  · have h0 := hheld 0 _ hop
    rw [show m.pc + BitVec.ofNat 64 (4 * 0) = m.pc from BitVec.add_zero _] at h0
    exact h0
  · exact hheld 1 _ (hints 0 n hn)
  · have h2 := hheld 2 _ (hints 1 n hn)
    rw [BitVec.add_assoc]
    exact h2

/-- The machine behind the opcode it is at. -/
def behindOpcode (m : Machine ω) : Machine ω := { m with toCore := m.toCore.advance }

/-- The instruction at `m` carries out its request, and that is in bounds if and only
    if `P` holds. -/
def Settles (op : Opcode) (m : Machine ω) (P : Prop) : Prop :=
  CarriesOut op (behindOpcode m) ∧
    ((∀ r, requestOf op (behindOpcode m) = some r → r.InBounds) ↔ P)

variable {P : Prop}

theorem Settles.of_request {r : Request} (hc : CarriesOut op (behindOpcode m))
    (hr : requestOf op (behindOpcode m) = some r) (h : r.InBounds ↔ P) : Settles op m P := by
  refine ⟨hc, ⟨fun hall => h.mp (hall r hr), fun hP r' hr' => ?_⟩⟩
  obtain rfl := Option.some.inj (hr.symm.trans hr')
  exact h.mpr hP

theorem Settles.of_none (hr : requestOf op (behindOpcode m) = none)
    (h : ∀ (rt : Runtime ω) act rounds,
      CamlUpstream.exec { rt with gcRounds := rounds } act op (behindOpcode m)
        = CamlUpstream.exec rt act op (behindOpcode m)) (hP : P) : Settles op m P :=
  ⟨.of_none hr h, fun _ => hP, fun _ r hr' => absurd (hr'.symm.trans hr) (Option.some_ne_none r)⟩

theorem Settles.of_fixed (wosize tag : Nat) (hc : CarriesOut op (behindOpcode m))
    (hr : requestOf op (behindOpcode m) = some (.young wosize tag) ∨
      requestOf op (behindOpcode m) = none)
    (h : (Request.young wosize tag).InBounds) : Settles op m True := by
  rcases hr with hr | hr
  · exact .of_request hc hr ⟨fun _ => trivial, fun _ => h⟩
  · exact ⟨hc, fun _ => trivial,
      fun _ r hr' => absurd (hr'.symm.trans hr) (Option.some_ne_none r)⟩

/-- The sum with the two words of the closure is one of `int`s; a small one does not
    wrap around, and a large one becomes large or next to 2^64. -/
theorem closure_settles {n : Int} (ho : Operands m .CLOSURE [n]) :
    Settles .CLOSURE m (-1 ≤ cInt n) := by
  have hn : (behindOpcode m).operand.toInt = cInt n := by
    rw [← toInt_operand, ← ho.first rfl]
    rfl
  have hsum : (2#32 + (behindOpcode m).operand).toInt = (2 + cInt n).bmod 4294967296 := by
    rw [BitVec.toInt_add, hn]
    rfl
  obtain ⟨hlo, hhi⟩ := cInt_range n
  have hsize := mlsize_emod (2#32 + (behindOpcode m).operand)
  refine .of_request (closure_carries _) rfl ?_
  rw [hn]
  by_cases hsmall : cInt n ≤ maxYoungWosize - 2
  · rw [decide_eq_true hsmall]
    unfold maxYoungWosize at hsmall
    rw [hsum, Int.bmod_eq_of_le (by omega) (by omega)] at hsize
    show 1 ≤ mlsize _ ∧ mlsize _ ≤ maxYoungWosize ∧ closureTag < 256 ↔ _
    unfold maxYoungWosize closureTag
    omega
  · rw [decide_eq_false hsmall]
    show maxYoungWosize < mlsize _ ↔ _
    unfold maxYoungWosize at hsmall ⊢
    by_cases hwrap : 2 + cInt n < 2147483648
    · rw [hsum, Int.bmod_eq_of_le (by omega) (by omega)] at hsize
      omega
    · rw [hsum, ← Int.sub_bmod_right _ 4294967296, Int.bmod_eq_of_le (by omega) (by omega)]
        at hsize
      omega

/-- `CLOSUREREC` asks for a young block, or for one in the major heap, unless the size
    wraps around to 0. -/
theorem closurerec_settles {f n : Int} (ho : Operands m .CLOSUREREC [f, n]) :
    Settles .CLOSUREREC m (cInt (3 * f - 1) + cInt n ≠ 0) := by
  have henv : ((behindOpcode m).operand * 3#32 - 1#32).toInt = cInt (3 * f - 1) := by
    have hop : (behindOpcode m).operand = BitVec.ofInt 32 f := ho.first rfl
    rw [toInt_envOffset, hop, toInt_operand, Int.mul_comm 3 f]
    show ((f.bmod 4294967296) * 3 - 1).bmod 4294967296 = (f * 3 - 1).bmod 4294967296
    rw [← Int.bmod_sub_bmod, Int.bmod_mul_bmod, Int.bmod_sub_bmod]
  have hvars : (behindOpcode m).toCore.advance.operand.toInt = cInt n := by
    rw [← toInt_operand, ← ho.second rfl]
    rfl
  obtain ⟨hlo, hhi⟩ := cInt_range n
  obtain ⟨hlo', hhi'⟩ := cInt_range (3 * f - 1)
  have hsize := mlsize_emod (behindOpcode m).toCore.advance.operand
  have hsize' := mlsize_emod ((behindOpcode m).operand * 3#32 - 1#32)
  rw [hvars] at hsize
  rw [henv] at hsize'
  refine .of_request (closurerec_carries _) rfl ((either_inBounds_iff _).trans ?_)
  unfold blockSize envOffset closureTag
  omega

/-- `MAKEBLOCK`, in one of its encodings. -/
theorem makeblock_settles {n t : Int} (ho : Operands m .MAKEBLOCK [n, t]) :
    Settles .MAKEBLOCK m (cInt n ≠ 0 ∧ (0 < cInt n → cInt n ≤ 256 → t % 4294967296 < 256)) := by
  have hn : (behindOpcode m).operand.toInt = cInt n := by
    rw [← toInt_operand, ← ho.first rfl]
    rfl
  have htag : (behindOpcode m).toCore.advance.operand.toNat < 256 ↔ t % 4294967296 < 256 := by
    rw [← toNat_tag, ← ho.second rfl]
    rfl
  refine .of_request (makeblock_carries _) rfl ((either_inBounds_iff _).trans ?_)
  rw [htag, mlsize_le, Ne, mlsize_eq_zero, hn]
  omega

theorem makefloatblock_settles {n : Int} (ho : Operands m .MAKEFLOATBLOCK [n]) :
    Settles .MAKEFLOATBLOCK m (cInt n ≠ 0) := by
  have hn : (behindOpcode m).operand.toInt = cInt n := by
    rw [← toInt_operand, ← ho.first rfl]
    rfl
  refine .of_request (makefloatblock_carries _) rfl ((either_inBounds_iff _).trans ?_)
  rw [Ne, mlsize_eq_zero, hn]
  exact and_iff_left fun _ => by decide

/-- `MAKEBLOCK1` to `MAKEBLOCK3`. -/
theorem makeblockN_settles {n : Nat} {t : Int} (ho : Operands m op [t]) (hn : 1 ≤ n) (hn3 : n ≤ 3)
    (hr : requestOf op (behindOpcode m) = some (.young n (behindOpcode m).operand.toNat))
    (hexec : ∀ (rt : Runtime ω) act,
      CamlUpstream.exec rt act op (behindOpcode m) = makeblockN rt n (behindOpcode m)) :
    Settles op m (t % 4294967296 < 256) := by
  have htag : (behindOpcode m).operand.toNat < 256 ↔ t % 4294967296 < 256 := by
    rw [← toNat_tag, ← ho.first rfl]
    rfl
  refine .of_request (makeblockN_carries hr hexec) hr ?_
  rw [← htag]
  show 1 ≤ n ∧ n ≤ maxYoungWosize ∧ _ ↔ _
  unfold maxYoungWosize
  exact ⟨fun h => h.2.2, fun h => ⟨hn, by omega, h⟩⟩

theorem getfloatfield_settles (m : Machine ω) : Settles .GETFLOATFIELD m True := by
  refine .of_fixed 1 doubleTag (getfloatfield_carries _) ?_
    ⟨by decide, by decide, by decide⟩
  unfold requestOf
  cases field (behindOpcode m).mem.heap (behindOpcode m).accu (behindOpcode m).operand.toInt with
  | ok d => exact .inl rfl
  | error f => exact .inr rfl

theorem perform_settles (m : Machine ω) : Settles .PERFORM m True := by
  refine .of_fixed 1 contTag (perform_carries _) ?_
    ⟨by decide, by decide, by decide⟩
  unfold requestOf
  cases (behindOpcode m).dom.pool.get (behindOpcode m).dom.currentStack with
  | none => exact .inr rfl
  | some i =>
      by_cases hp : i.parent.isSome
      · exact .inl (if_pos hp)
      · exact .inr (if_neg hp)

/-! ## The bound and `GRAB` -/

/-- `1 + extra_args + 3` words. -/
theorem toNat_numArgs {x : Long} (h : 0 ≤ x.toInt) :
    ((1 + x).toNat + 3 : Int) = x.toInt + 4 := by
  have hlt := x.isLt
  rw [BitVec.toInt_eq_toNat_cond] at h ⊢
  rw [BitVec.toNat_add]
  split at h
  · rename_i hsmall
    rw [if_pos hsmall, show (1 : Long).toNat = 1 from rfl]
    omega
  · omega

/-- `GRAB` asks for a young block exactly if it has its arguments or they are few. -/
theorem grab_settles {n : Int} (ho : Operands m .GRAB [n]) (hx : 0 ≤ m.extraArgs.toInt) :
    Settles .GRAB m (cInt n ≤ m.extraArgs.toInt ∨ m.extraArgs.toInt ≤ 252) := by
  have hn : (behindOpcode m).operand.toInt = cInt n := by
    rw [← toInt_operand, ← ho.first rfl]
    rfl
  have hsize := toNat_numArgs hx
  by_cases hle : cInt n ≤ m.extraArgs.toInt
  · have hnone : requestOf .GRAB (behindOpcode m) = none := if_pos (by rw [hn]; exact hle)
    exact ⟨grab_carries _, fun _ => .inl hle,
      fun _ r hr => absurd (hr.symm.trans hnone) (Option.some_ne_none r)⟩
  · have hsome : requestOf .GRAB (behindOpcode m)
        = some (.young ((1 + m.extraArgs).toNat + 3) closureTag) :=
      if_neg (by rw [hn]; exact hle)
    refine .of_request (grab_carries _) hsome ?_
    show 1 ≤ _ ∧ _ ≤ maxYoungWosize ∧ closureTag < 256 ↔ _
    unfold maxYoungWosize closureTag
    omega

/-- The step at an instruction carries out its request. -/
theorem CarriesOut.step (h : CarriesOut op (behindOpcode m)) (hop : m.mem.code m.pc = op.code) :
    (∀ r, requestOf op (behindOpcode m) = some r → ∃ m' k, ∀ rt act,
      machineStep rt act (.next m) = r.carryOut rt m' k) ∧
    (requestOf op (behindOpcode m) = none → ∀ (rt : Runtime ω) act rounds,
      machineStep { rt with gcRounds := rounds } act (.next m) = machineStep rt act (.next m)) := by
  refine ⟨fun r hr => ?_, fun hr rt act rounds => ?_⟩
  · obtain ⟨m', k, hk⟩ := h.1 r hr
    exact ⟨m', k, fun rt act => (step_at hop).trans (hk rt act)⟩
  · rw [step_at hop, step_at hop]
    exact h.2 hr rt act rounds

/-- `Kmakeblock`, in each of its encodings. -/
theorem kmakeblock_settles {n t : Int} (h0 : 0 ≤ n)
    (hw : Writes (.Kmakeblock n t) ws) (hheld : HeldAt m.mem.code m.pc ws) :
    ∃ op, m.mem.code m.pc = op.code ∧
      Settles op m (Accommodated m.extraArgs.toInt (.Kmakeblock n t)) := by
  by_cases hsmall : n < 4
  · obtain rfl | rfl | rfl | rfl : n = 0 ∨ n = 1 ∨ n = 2 ∨ n = 3 := by omega
    · by_cases ht : t = 0
      · have ho : Operands m .ATOM0 [] := .of_writes [] hw hheld (by rw [ht]; rfl)
        exact ⟨.ATOM0, ho.opcode, .of_none rfl (fun _ _ _ => rfl) (.inl rfl)⟩
      · have henc : encoding (.Kmakeblock 0 t) = some ⟨opNum .ATOM, [.int t]⟩ := by
          show some (if t = 0 then _ else _) = _
          rw [if_neg ht]
        have ho : Operands m .ATOM [t] := .of_writes [] hw hheld henc
        exact ⟨.ATOM, ho.opcode, .of_none rfl (fun _ _ _ => rfl) (.inl rfl)⟩
    · have ho : Operands m .MAKEBLOCK1 [t] := .of_writes [] hw hheld rfl
      obtain ⟨hc, hiff⟩ := makeblockN_settles ho (by decide) (by decide) rfl fun _ _ => rfl
      exact ⟨_, ho.opcode, hc, hiff.trans (by simp [Accommodated, cInt])⟩
    · have ho : Operands m .MAKEBLOCK2 [t] := .of_writes [] hw hheld rfl
      obtain ⟨hc, hiff⟩ := makeblockN_settles ho (by decide) (by decide) rfl fun _ _ => rfl
      exact ⟨_, ho.opcode, hc, hiff.trans (by simp [Accommodated, cInt])⟩
    · have ho : Operands m .MAKEBLOCK3 [t] := .of_writes [] hw hheld rfl
      obtain ⟨hc, hiff⟩ := makeblockN_settles ho (by decide) (by decide) rfl fun _ _ => rfl
      exact ⟨_, ho.opcode, hc, hiff.trans (by simp [Accommodated, cInt])⟩
  · have henc : encoding (.Kmakeblock n t) = some ⟨opNum .MAKEBLOCK, [.int n, .int t]⟩ := by
      show some (if n = 0 then _ else if n < 4 then _ else _) = _
      rw [if_neg (by omega), if_neg hsmall]
    have ho : Operands m .MAKEBLOCK [n, t] := .of_writes [] hw hheld henc
    obtain ⟨hc, hiff⟩ := makeblock_settles ho
    exact ⟨_, ho.opcode, hc, hiff.trans (or_iff_right (by omega)).symm⟩

/-- `Kmakefloatblock`, which is an atom when it is empty. -/
theorem kmakefloatblock_settles {n : Int} (hw : Writes (.Kmakefloatblock n) ws)
    (hheld : HeldAt m.mem.code m.pc ws) :
    ∃ op, m.mem.code m.pc = op.code ∧ Settles op m (n = 0 ∨ cInt n ≠ 0) := by
  by_cases hn : n = 0
  · have ho : Operands m .ATOM0 [] := .of_writes [] hw hheld (by rw [hn]; rfl)
    exact ⟨.ATOM0, ho.opcode, .of_none rfl (fun _ _ _ => rfl) (.inl hn)⟩
  · have henc : encoding (.Kmakefloatblock n) = some ⟨opNum .MAKEFLOATBLOCK, [.int n]⟩ := by
      show some (if n = 0 then _ else _) = _
      rw [if_neg hn]
    have ho : Operands m .MAKEFLOATBLOCK [n] := .of_writes [] hw hheld henc
    obtain ⟨hc, hiff⟩ := makefloatblock_settles ho
    exact ⟨_, ho.opcode, hc, hiff.trans (or_iff_right hn).symm⟩

/-- **REQUESTS TO THE MINOR HEAP**: the instructions that allocate carry out their
    requests, and these are in bounds unless a `GRAB` that lacks arguments has been
    given 254 of them or more, or the number of words wraps around. -/
theorem young_requests_iff (m : Machine ω) (instr : Instruction) (ws : List OpcodeWord)
    (ha : Allocates instr) (hw : Writes instr ws) (hheld : HeldAt m.mem.code m.pc ws)
    (hx : 0 ≤ m.extraArgs.toInt) :
    ∃ op, m.mem.code m.pc = op.code ∧
      ((∀ r, requestOf op (behindOpcode m) = some r → ∃ m' k, ∀ rt act,
          machineStep rt act (.next m) = r.carryOut rt m' k) ∧
        (requestOf op (behindOpcode m) = none → ∀ (rt : Runtime ω) act rounds,
          machineStep { rt with gcRounds := rounds } act (.next m)
            = machineStep rt act (.next m))) ∧
      ((∀ r, requestOf op (behindOpcode m) = some r → r.InBounds) ↔
        Accommodated m.extraArgs.toInt instr) := by
  suffices h : ∃ op, m.mem.code m.pc = op.code ∧
      Settles op m (Accommodated m.extraArgs.toInt instr) by
    obtain ⟨op, hop, hc, hiff⟩ := h
    exact ⟨op, hop, hc.step hop, hiff⟩
  cases instr
  case Kgrab n =>
    have ho : Operands m .GRAB [n] := .of_writes [] hw hheld rfl
    exact ⟨.GRAB, ho.opcode, grab_settles ho hx⟩
  case Kclosure lbl n =>
    have ho : Operands m .CLOSURE [n] := .of_writes [.labels [lbl]] hw hheld rfl
    exact ⟨.CLOSURE, ho.opcode, closure_settles ho⟩
  case Kclosurerec lbls n =>
    have ho : Operands m .CLOSUREREC [(lbls.length : Int), n] :=
      .of_writes [.labels lbls] hw hheld rfl
    exact ⟨.CLOSUREREC, ho.opcode, closurerec_settles ho⟩
  case Kmakeblock n t => exact kmakeblock_settles ha hw hheld
  case Kmakefloatblock n => exact kmakefloatblock_settles hw hheld
  case Kgetfloatfield n =>
    have ho : Operands m .GETFLOATFIELD [n] := .of_writes [] hw hheld rfl
    exact ⟨.GETFLOATFIELD, ho.opcode, getfloatfield_settles m⟩
  case Kperform =>
    have ho : Operands m .PERFORM [] := .of_writes [] hw hheld rfl
    exact ⟨.PERFORM, ho.opcode, perform_settles m⟩
  all_goals exact ha.elim

/-! ## A large block and a long application -/

/-- A machine at 0x1000, in front of these words, with room for 254 arguments and a
    frame on its stack. -/
def inFrontOf (ws : List OpcodeWord) (extraArgs : Long) : Machine Unit where
  pc := 0x1000#64
  sp := List.replicate 257 valUnit
  accu := valUnit
  env := .atom 0
  extraArgs := extraArgs
  mem := {
    heap := ⟨[]⟩
    code := assemble 0x1000#64 ws
    globalData := valUnit
    raiseUnhandled := valUnit }
  dom := domainOf [mainStack] 0

theorem held_two (w0 w1 : OpcodeWord) (x : Long) :
    HeldAt (inFrontOf [w0, w1] x).mem.code 0x1000#64 [w0, w1] := by
  intro k w hk
  rcases k with _ | _ | k
  · exact Option.some.inj hk
  · exact Option.some.inj hk
  · cases hk

/-- `MAKEFLOATBLOCK 300` goes to the major heap. -/
theorem young_requests_float :
    ∃ op, (inFrontOf [Opcode.MAKEFLOATBLOCK.code, 300#32] 0#63).mem.code 0x1000#64 = op.code ∧
      ∀ r, requestOf op (behindOpcode (inFrontOf [Opcode.MAKEFLOATBLOCK.code, 300#32] 0#63))
        = some r → r.InBounds := by
  have hw : Writes (.Kmakefloatblock 300) [Opcode.MAKEFLOATBLOCK.code, 300#32] :=
    writes_init (e := init.outInstr ⟨opNum .MAKEFLOATBLOCK, [.int 300]⟩) rfl
  obtain ⟨op, hop, -, hiff⟩ := young_requests_iff
    (inFrontOf [Opcode.MAKEFLOATBLOCK.code, 300#32] 0#63) (.Kmakefloatblock 300) _
    trivial hw (held_two _ _ _) (by decide)
  exact ⟨op, hop, hiff.mpr (.inr (by decide))⟩

/-- A function of 255 arguments applied to 254 of them: `GRAB` asks for 257 words. -/
theorem young_requests_grab :
    Writes (.Kgrab 254) [Opcode.GRAB.code, 254#32] ∧
      HeldAt (inFrontOf [Opcode.GRAB.code, 254#32] 253#63).mem.code 0x1000#64
        [Opcode.GRAB.code, 254#32] ∧
      requestOf .GRAB (behindOpcode (inFrontOf [Opcode.GRAB.code, 254#32] 253#63))
        = some (.young 257 closureTag) ∧
      ¬ (Request.young 257 closureTag).InBounds ∧
      machineStep quiet soleActivation (.next (inFrontOf [Opcode.GRAB.code, 254#32] 253#63))
        = .error .camlAssert := by
  refine ⟨writes_init (e := init.outInstr ⟨opNum .GRAB, [.int 254]⟩) rfl, held_two _ _ _, rfl,
    fun h => absurd h.2.1 (by decide), rfl⟩

end CamlYoung
