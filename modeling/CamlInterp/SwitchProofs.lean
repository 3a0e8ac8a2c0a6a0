import CamlInterp.EmitProofs
import CamlInterp.CallProofs

/-! # `SWITCH` and `Kswitch`

    The emitter packs the lengths of the two tables of a `Kswitch` into one word,
    sixteen bits each, and writes a displacement for every entry, some of them
    long before it knows where the label is.  The interpreter unpacks the
    lengths, checks the scrutinee against them and jumps.  This file follows an
    entry from the emitter through the code array to the jump. -/

namespace CamlSwitch

open CellStore CamlValue CamlOpcode CamlMachine CamlInstr CamlControl CamlStep CamlCall CamlEmit

variable {ω : Type}

/-! ## The code array -/

/-- The code array has the emitted words from `base` on, and something from the
    linker in its slots.  No array of C is longer than `PTRDIFF_MAX`. -/
structure Loaded (code : CodePtr → OpcodeWord) (base : CodePtr) (e : Emitter) : Prop where
  fits : e.outPosition < 9223372036854775808
  word : ∀ {k w}, e.outBuffer[k]? = some w → (∀ info, (info, 4 * k) ∉ e.relocInfo) →
    code (base + BitVec.ofNat 64 (4 * k)) = w

/-! ## A list of instructions, cut before a `Kswitch` -/

/-- No case of `emit` looks past a `Kswitch`. -/
theorem before_switch {c p rem after : List Instruction} {tc tb : List Label}
    (hp : ∀ tc tb, Instruction.Kswitch tc tb ∉ p) (h : c ++ .Kswitch tc tb :: after = p ++ rem) :
    ∃ rem', c = p ++ rem' := by
  rcases List.append_eq_append_iff.mp h with ⟨as, hpas, hrest⟩ | ⟨as, hc, -⟩
  · cases as with
    | nil => exact ⟨[], by rw [hpas, List.append_nil, List.append_nil]⟩
    | cons a as =>
        obtain rfl := (List.cons.inj hrest).1
        refine absurd ?_ (hp tc tb)
        rw [hpas]
        exact List.mem_append_right _ List.mem_cons_self
  · exact ⟨as, hc⟩

/-- Merging events looks no further than the next instruction that is none. -/
theorem remergeEvents_append {ev : DebugEvent} {c c' : List Instruction}
    (h : remergeEvents ev c = .ok c') (after : List Instruction) (tc tb : List Label) :
    remergeEvents ev (c ++ .Kswitch tc tb :: after) = .ok (c' ++ .Kswitch tc tb :: after) := by
  unfold remergeEvents at h
  split at h
  · next ev2 c =>
      obtain ⟨ev', hm, h⟩ := bind_ok h
      obtain rfl := Except.ok.inj h
      rw [List.cons_append, remergeEvents, hm]
      rfl
  · next hc =>
      obtain rfl := Except.ok.inj h
      cases c with
      | nil => rfl
      | cons i c =>
          cases i with
          | Kevent ev2 => exact absurd rfl (hc ev2 c)
          | _ => rfl

/-- `emit` goes through the instructions before a `Kswitch` as if they were all. -/
theorem emit_append_switch (tc tb : List Label) (after : List Instruction)
    {before : List Instruction} {e e' : Emitter} (h : emit before e = .ok e') :
    emit (before ++ .Kswitch tc tb :: after) e = emit (.Kswitch tc tb :: after) e' := by
  fun_induction emit before e with
  | case1 e =>
      obtain rfl := Except.ok.inj h
      rfl
  | case30 =>
      rename_i ih
      obtain ⟨e1, he1, h⟩ := bind_ok h
      rw [List.cons_append, emit]
      · rw [he1]
        exact ih e1 h
      -- no earlier case applies now that did not before
      all_goals
        intros
        rename _ ++ _ = _ => hc
        first
          | obtain ⟨rem', hc'⟩ := before_switch (p := [_, _, _]) (by simp) hc; solve_by_elim
          | obtain ⟨rem', hc'⟩ := before_switch (p := [_, _]) (by simp) hc; solve_by_elim
          | obtain ⟨rem', hc'⟩ := before_switch (p := [_]) (by simp) hc; solve_by_elim
  | case18 | case20 | case22 | case24 | case26 | case28 => cases h
  | case17 | case19 | case21 | case23 | case25 | case27 =>
      rename_i hmoved ih
      simp only [List.cons_append]
      rw [emit]
      · split
        · next c2 h2 =>
            obtain rfl := Except.ok.inj ((remergeEvents_append hmoved after tc tb).symm.trans h2)
            exact ih h
        · next msg h2 => cases (remergeEvents_append hmoved after tc tb).symm.trans h2
      all_goals
        intros
        rename _ ++ _ = _ => hc
        obtain ⟨rem', hc'⟩ := before_switch (p := [_]) (by simp) hc
        solve_by_elim
  | _ =>
      rename_i ih
      simp only [List.cons_append]
      rw [emit]
      · first
          | rw [if_neg (by assumption)]; exact ih h
          | obtain ⟨i, hi, h⟩ := bind_ok h
            rw [if_pos (by assumption), hi]
            exact ih i h
          | exact ih h
      all_goals
        intros
        rename _ ++ _ = _ => hc
        first
          | obtain ⟨rem', hc'⟩ := before_switch (p := [_, _]) (by simp) hc; solve_by_elim
          | obtain ⟨rem', hc'⟩ := before_switch (p := [_]) (by simp) hc; solve_by_elim

/-! ## What a `Kswitch` writes -/

variable {e e1 e' : Emitter} {lbls : List Label}

/-- A switch with its sizes and its table at word `n`. -/
structure SwitchAt (e : Emitter) (n : Nat) (sizes : Int) (tbl : List Label) : Prop where
  opcode : Fixed e n Opcode.SWITCH.code
  sizes : Fixed e (n + 1) (BitVec.ofInt 32 sizes)
  entry : ∀ {j l}, tbl[j]? = some l →
    Backpatch.Refers layout e.patching (n + 2 + j) (4 * (n + 2)) l
  inside : n + 2 + tbl.length ≤ e.outBuffer.length
  noSlot : ∀ {j info}, j < tbl.length → (info, 4 * (n + 2 + j)) ∉ e.relocInfo

/-- What `emit` writes for a `Kswitch`. -/
theorem emit_switch (tblConst tblBlock : List Label) (after : List Instruction) (e : Emitter) :
    emit (.Kswitch tblConst tblBlock :: after) e = emit after
      ((((e.out (opNum .SWITCH)).outInt (tblConst.length + tblBlock.length * 65536))).outLabels
        (4 * (e.outBuffer.length + 2)) (tblConst ++ tblBlock)) := by
  have hpos : (((e.out (opNum .SWITCH)).outInt
      (tblConst.length + tblBlock.length * 65536))).outPosition
        = 4 * (e.outBuffer.length + 2) := by
    rw [Emitter.outPosition_write rfl, Emitter.outPosition_write rfl]
    unfold Emitter.outPosition
    omega
  rw [← hpos, emit]
  · rfl
  all_goals
    intros
    contradiction

/-- The switch is there when the emitter is through. -/
theorem switch_emitted {before after : List Instruction} {tblConst tblBlock : List Label}
    (hbefore : emit before init = .ok e)
    (hall : emit (before ++ .Kswitch tblConst tblBlock :: after) init = .ok e') :
    SwitchAt e' e.outBuffer.length (tblConst.length + tblBlock.length * 65536)
      (tblConst ++ tblBlock) := by
  have hv := emit_valid hbefore
  rw [emit_append_switch _ _ _ hbefore, emit_switch] at hall
  have hg1 := (Emitter.Grows.refl e).out (opNum .SWITCH)
  have hv1 := hv.grows hg1
  have hg2 := (Emitter.Grows.refl (e.out (opNum .SWITCH))).outInt
    (tblConst.length + tblBlock.length * 65536)
  have hv2 := hv1.grows hg2
  have hlen2 : ((e.out (opNum .SWITCH)).outInt
      (tblConst.length + tblBlock.length * 65536)).outBuffer.length = e.outBuffer.length + 2 := by
    rw [length_outInt, length_out]
  have hlabels := (Emitter.Grows.refl ((e.out (opNum .SWITCH)).outInt
    (tblConst.length + tblBlock.length * 65536))).outLabels (4 * (e.outBuffer.length + 2))
    (tblConst ++ tblBlock)
  have hrest := emit_grows hall
  obtain ⟨hlen3, hr3⟩ := length_outLabels (4 * (e.outBuffer.length + 2))
    ((e.out (opNum .SWITCH)).outInt (tblConst.length + tblBlock.length * 65536))
    (tblConst ++ tblBlock)
  refine ⟨?_, ?_, ?_, ?_, ?_⟩
  · exact (out_fixed hv (opNum .SWITCH)).grows hv1 (hg2.trans (hlabels.trans hrest))
  · have hsizes := outInt_fixed hv1 (tblConst.length + tblBlock.length * 65536)
    rw [length_out] at hsizes
    exact hsizes.grows hv2 (hlabels.trans hrest)
  · intro j l hl
    have href := outLabels_refers hv2.sound (4 * (e.outBuffer.length + 2)) hl
    rw [hlen2] at href
    exact ((hv2.grows hlabels).keeps hrest).refers href
  · have hle := hrest.position
    unfold Emitter.outPosition at hle
    omega
  · -- a slot is an older word, or a newer one
    intro j info hj hmem
    rcases hrest.slots hmem with hold | ⟨hle, -⟩
    · rw [hr3] at hold
      have hlt := hv2.slots hold
      unfold Emitter.outPosition at hlt
      dsimp only at hlt
      omega
    · unfold Emitter.outPosition at hle
      dsimp only at hle
      omega

/-! ## The instruction -/

variable {c : Core} {i t n : Nat}

/-- `sizes & 0xFFFF` -/
theorem and_ffff (w : OpcodeWord) : (w &&& 0xFFFF#32).toNat = w.toNat % 65536 := by
  rw [BitVec.toNat_and]
  exact Nat.and_two_pow_sub_one_eq_mod _ 16

/-- `sizes >> 16` -/
theorem shiftRight_16 (w : OpcodeWord) : (w >>> 16).toNat = w.toNat / 65536 := by
  rw [BitVec.toNat_ushiftRight, Nat.shiftRight_eq_div_pow]

theorem isBlock_valLong (x : Long) : isBlock (valLong x) = .ok false := by
  have hbit : (tagged x).getLsbD 0 = true := by
    unfold tagged
    rw [BitVec.getLsbD_append, if_pos Nat.zero_lt_one]
    rfl
  show Except.ok (!(tagged x).getLsbD 0) = _
  rw [hbit]
  rfl

/-- An immediate selects an entry of the first table. -/
theorem switch_immediate (hi : i < 4611686018427387904) (haccu : c.accu = valInt i) :
    switch c = if i < c.operand.toNat % 65536
      then .ok { c.advance with pc := c.advance.codeAt (c.advance.operandAt i) }
      else .error .camlAssert := by
  have hblock : isBlock c.accu = .ok false := by
    rw [haccu]
    exact isBlock_valLong _
  have hint : (BitVec.ofInt 63 (i : Int)).toInt = i := by
    rw [BitVec.toInt_ofInt, Int.bmod_eq_of_le (by omega) (by omega)]
  have hlong : longVal c.accu = .ok (BitVec.ofInt 63 i) := by
    rw [haccu]
    exact longVal_valLong _
  have hult : ((BitVec.ofInt 63 (i : Int)).signExtend 64).ult
      ((c.operand &&& 0xFFFF#32).zeroExtend 64) = decide (i < c.operand.toNat % 65536) := by
    have hleft : ((BitVec.ofInt 63 (i : Int)).signExtend 64).toNat = i := by
      rw [BitVec.signExtend, hint, BitVec.toNat_ofInt]
      omega
    have hright : ((c.operand &&& 0xFFFF#32).zeroExtend 64).toNat = c.operand.toNat % 65536 := by
      rw [BitVec.zeroExtend, BitVec.toNat_setWidth, and_ffff]
      omega
    rw [BitVec.ult, hleft, hright]
  unfold switch
  dsimp only [Core.advance] at hblock hlong ⊢
  rw [hblock]
  show (longVal c.accu >>= _) = _
  rw [hlong]
  show (camlAssert _ >>= _) = _
  rw [hult, hint]
  unfold camlAssert
  by_cases h : i < c.operand.toNat % 65536
  · rw [if_pos h, if_pos (decide_eq_true h)]
    rfl
  · rw [if_neg h, if_neg (by simpa using h)]
    rfl

/-- A block selects an entry of the second table, behind the first. -/
theorem switch_block (hblock : isBlock c.accu = .ok true)
    (htag : tagVal c.mem.heap c.accu = .ok t) :
    switch c = if t < c.operand.toNat / 65536
      then .ok { c.advance with
        pc := c.advance.codeAt (c.advance.operandAt (c.operand.toNat % 65536 + t : Nat)) }
      else .error .camlAssert := by
  unfold switch
  dsimp only [Core.advance]
  rw [hblock]
  show (tagVal c.mem.heap c.accu >>= _) = _
  rw [htag]
  show (camlAssert _ >>= _) = _
  rw [shiftRight_16, and_ffff]
  unfold camlAssert
  by_cases h : t < c.operand.toNat / 65536
  · rw [if_pos h, if_pos (decide_eq_true h)]
    rfl
  · rw [if_neg h, if_neg (by simpa using h)]
    rfl

/-- A displacement that is cut to 32 bits leads to the label if and only if it
    fits them. -/
theorem jump_iff (base : CodePtr) {k o : Nat} (hk : k < 2305843009213693952)
    (ho : o < 2305843009213693952) :
    base + BitVec.ofNat 64 (4 * o) + BitVec.ofInt 64 (4 * (layout.fill (4 * k) (4 * o)).toInt)
        = base + BitVec.ofNat 64 (4 * k) ↔
      -2147483648 ≤ (k : Int) - o ∧ (k : Int) - o < 2147483648 := by
  have hd : (((4 * k : Nat) : Int) - (4 * o : Nat)) >>> (2 : Nat) = (k : Int) - o := by
    rw [Int.shiftRight_eq_div_pow]
    omega
  show _ + BitVec.ofInt 64
    (4 * (BitVec.ofInt 32 ((((4 * k : Nat) : Int) - (4 * o : Nat)) >>> (2 : Nat))).toInt) = _ ↔ _
  rw [hd, BitVec.add_assoc, BitVec.toInt_ofInt, BitVec.add_right_inj, ← BitVec.ofInt_natCast,
    ← BitVec.ofInt_natCast, ← BitVec.ofInt_add, ← BitVec.toInt_inj, BitVec.toInt_ofInt,
    BitVec.toInt_ofInt]
  have hle := Int.le_bmod (x := (k : Int) - o) (m := 2 ^ 32) (by decide)
  have hlt := Int.bmod_lt (x := (k : Int) - o) (m := 2 ^ 32) (by decide)
  have hmod := Int.bmod_emod (x := (k : Int) - o) (m := 2 ^ 32)
  constructor
  · intro h
    have h64 := congrArg (· % ((2 ^ 64 : Nat) : Int)) h
    simp only [Int.bmod_emod] at h64
    omega
  · intro h
    have heq : Int.bmod ((k : Int) - o) (2 ^ 32) = (k : Int) - o := by omega
    rw [heq]
    congr 1
    omega

/-! ## The machine at the switch -/

variable {rt : Runtime ω} {act : Activation} {a m : Machine ω} {base : CodePtr} {sizes : Int}
  {tbl tblConst tblBlock : List Label} {l : Label} {pos : Nat}

/-- Where the word emitted for `pos` leads from the start of the tables. -/
def target (base : CodePtr) (n pos : Nat) : CodePtr :=
  base + BitVec.ofNat 64 (4 * (n + 2)) +
    BitVec.ofInt 64 (4 * (layout.fill pos (4 * (n + 2))).toInt)

theorem address_add (base : CodePtr) (k j : Nat) :
    base + BitVec.ofNat 64 (4 * k) + BitVec.ofInt 64 (4 * (j : Int))
      = base + BitVec.ofNat 64 (4 * (k + j)) := by
  have hj : (4 * (j : Int)) = ((4 * j : Nat) : Int) := by omega
  rw [BitVec.add_assoc, hj, BitVec.ofInt_natCast, ← BitVec.ofNat_add, Nat.mul_add]

/-- The words of the switch in memory. -/
structure InMemory (a : Machine ω) (base : CodePtr) (n : Nat) (sizes : Int) : Prop where
  opcode : a.mem.code a.pc = Opcode.SWITCH.code
  sizes : (a.toCore.advance).operand = BitVec.ofInt 32 sizes
  tables : (a.toCore.advance).advance.pc = base + BitVec.ofNat 64 (4 * (n + 2))

/-- The words of a `SWITCH`, from the code array to memory. -/
theorem loaded_inMemory (h : SwitchAt e n sizes tbl) (hl : Loaded a.mem.code base e)
    (hpc : a.pc = base + BitVec.ofNat 64 (4 * n)) : InMemory a base n sizes := by
  have hnext : a.pc + 4#64 = base + BitVec.ofNat 64 (4 * (n + 1)) := by
    rw [hpc]
    exact address_add base n 1
  refine ⟨?_, ?_, ?_⟩
  · rw [hpc]
    exact hl.word h.opcode.settled.1 h.opcode.noSlot
  · show a.mem.code (a.pc + 4#64) = _
    rw [hnext]
    exact hl.word h.sizes.settled.1 h.sizes.noSlot
  · show a.pc + 4#64 + 4#64 = _
    rw [hnext]
    exact address_add base (n + 1) 1

/-- Entry `j` of the tables leads where the emitter meant, up to the cut. -/
theorem entry_inMemory {j : Nat} (h : SwitchAt e n sizes tbl) (hl : Loaded a.mem.code base e)
    (hm : InMemory a base n sizes) (hj : tbl[j]? = some l)
    (hpos : e.labelTable l = .Label_defined pos) :
    a.toCore.advance.advance.codeAt (a.toCore.advance.advance.operandAt j) = target base n pos := by
  have ht : e.patching.target l = .placed pos := congrArg LabelDefinition.target hpos
  have hword := (h.entry hj).of_placed ht
  have hlt : j < tbl.length := (List.getElem?_eq_some_iff.mp hj).1
  have hcode := hl.word hword fun info => h.noSlot hlt
  have hoperand : a.toCore.advance.advance.operandAt j = layout.fill pos (4 * (n + 2)) := by
    show a.mem.code (a.toCore.advance.advance.pc + _) = _
    rw [hm.tables, address_add]
    exact hcode
  rw [hoperand]
  show a.toCore.advance.advance.pc + _ = _
  rw [hm.tables]
  rfl

theorem switch_step (h : a.mem.code a.pc = Opcode.SWITCH.code) :
    machineStep rt act (.next a)
      = (switch a.toCore.advance).map fun c => .next { a with toCore := c } := by
  rw [step_at h]
  show thenNext switch { a with toCore := a.toCore.advance } = _
  unfold thenNext onCore
  show ((switch a.toCore.advance >>= _) >>= _) = _
  cases switch a.toCore.advance with
  | error e => rfl
  | ok c => rfl

/-- What the sizes word says, unpacked. -/
theorem sizes_unpacked (nc nb : Nat) :
    (BitVec.ofInt 32 ((nc : Int) + nb * 65536)).toNat % 65536 = nc % 65536 ∧
      (BitVec.ofInt 32 ((nc : Int) + nb * 65536)).toNat / 65536 = (nb + nc / 65536) % 65536 := by
  rw [BitVec.toNat_ofInt]
  omega

/-- `SWITCH` on an immediate. -/
theorem immediate_step (rt : Runtime ω) (act : Activation)
    (h : SwitchAt e n (tblConst.length + tblBlock.length * 65536) (tblConst ++ tblBlock))
    (hl : Loaded a.mem.code base e)
    (hpc : a.pc = base + BitVec.ofNat 64 (4 * n)) (hi : tblConst[i]? = some l)
    (hpos : e.labelTable l = .Label_defined pos) (haccu : a.accu = valInt i) :
    machineStep rt act (.next a) = if i < tblConst.length % 65536
      then .ok (.next { a with pc := target base n pos }) else .error .camlAssert := by
  have hm := loaded_inMemory h hl hpc
  have hlt : i < tblConst.length := (List.getElem?_eq_some_iff.mp hi).1
  have hj : (tblConst ++ tblBlock)[i]? = some l := by
    rw [List.getElem?_append_left hlt]
    exact hi
  have hsmall : i < 4611686018427387904 := by
    have hfits := hl.fits
    have hin := h.inside
    unfold Emitter.outPosition at hfits
    rw [List.length_append] at hin
    omega
  rw [switch_step hm.opcode, switch_immediate (c := a.toCore.advance) hsmall haccu, hm.sizes,
    (sizes_unpacked _ _).1, entry_inMemory h hl hm hj hpos]
  by_cases hin : i < tblConst.length % 65536
  · rw [if_pos hin, if_pos hin]
    rfl
  · rw [if_neg hin, if_neg hin]
    rfl

/-- `SWITCH` on a block. -/
theorem block_step (rt : Runtime ω) (act : Activation)
    (h : SwitchAt e n (tblConst.length + tblBlock.length * 65536) (tblConst ++ tblBlock))
    (hl : Loaded a.mem.code base e)
    (hpc : a.pc = base + BitVec.ofNat 64 (4 * n)) (hconst : tblConst.length < 65536)
    (ht : tblBlock[t]? = some l) (hpos : e.labelTable l = .Label_defined pos)
    (hblock : isBlock a.accu = .ok true) (htag : tagVal a.mem.heap a.accu = .ok t) :
    machineStep rt act (.next a) = if t < tblBlock.length % 65536
      then .ok (.next { a with pc := target base n pos }) else .error .camlAssert := by
  have hm := loaded_inMemory h hl hpc
  have hj : (tblConst ++ tblBlock)[tblConst.length % 65536 + t]? = some l := by
    rw [Nat.mod_eq_of_lt hconst, List.getElem?_append_right (Nat.le_add_right _ _),
      Nat.add_sub_cancel_left]
    exact ht
  have hsizes : (tblBlock.length + tblConst.length / 65536) % 65536 = tblBlock.length % 65536 := by
    rw [Nat.div_eq_of_lt hconst, Nat.add_zero]
  rw [switch_step hm.opcode, switch_block (c := a.toCore.advance) hblock htag, hm.sizes,
    (sizes_unpacked _ _).1, (sizes_unpacked _ _).2, hsizes, entry_inMemory h hl hm hj hpos]
  by_cases hin : t < tblBlock.length % 65536
  · rw [if_pos hin, if_pos hin]
    rfl
  · rw [if_neg hin, if_neg hin]
    rfl

/-! ## What the emitter meant -/

/-- Whatever the scrutinee, the switch at `m` goes to the label of its entry. -/
structure JumpsAsMeant (rt : Runtime ω) (act : Activation) (base : CodePtr) (e : Emitter)
    (m : Machine ω) (tblConst tblBlock : List Label) : Prop where
  immediate : ∀ (i : Nat) (l : Label) (pos : Nat), tblConst[i]? = some l →
    e.labelTable l = .Label_defined pos →
    machineStep rt act (.next { m with accu := valInt i })
      = .ok (.next { m with accu := valInt i, pc := base + BitVec.ofNat 64 pos })
  block : ∀ (v : Value) (heap : Heap) (t : Nat) (l : Label) (pos : Nat), isBlock v = .ok true →
    tagVal heap v = .ok t → t < 256 → tblBlock[t]? = some l →
    e.labelTable l = .Label_defined pos →
    machineStep rt act (.next { m with accu := v, mem := { m.mem with heap := heap } })
      = .ok (.next { m with
        accu := v, mem := { m.mem with heap := heap }, pc := base + BitVec.ofNat 64 pos })

/-- The displacement from the table at `start` fits an operand. -/
def Near (e : Emitter) (start : Nat) (l : Label) : Prop :=
  ∀ pos, e.labelTable l = .Label_defined pos →
    -8589934592 ≤ (pos : Int) - start ∧ (pos : Int) - start < 8589934592

/-- The lengths fit their halves of the sizes word, as far as there are tags, and
    the displacements fit theirs. -/
structure Accommodated (e : Emitter) (start : Nat) (tblConst tblBlock : List Label) : Prop where
  consts : tblConst.length < 65536
  blocks : min tblBlock.length 256 ≤ tblBlock.length % 65536
  near : ∀ l ∈ tblConst ++ tblBlock.take 256, Near e start l

/-- The jump arrives exactly when the distance fits 32 bits of words. -/
theorem target_iff (hs : Backpatch.Sound layout e.patching) (hl : Loaded a.mem.code base e)
    (hn : n + 2 ≤ e.outBuffer.length) (hpos : e.labelTable l = .Label_defined pos) :
    target base n pos = base + BitVec.ofNat 64 pos ↔
      -8589934592 ≤ (pos : Int) - (4 * (n + 2) : Nat) ∧
        (pos : Int) - (4 * (n + 2) : Nat) < 8589934592 := by
  have ht : e.patching.target l = .placed pos := congrArg LabelDefinition.target hpos
  obtain ⟨k, hk, rfl⟩ := hs.placed ht
  have hfits := hl.fits
  have hk' : k ≤ e.outBuffer.length := hk
  unfold Emitter.outPosition at hfits
  refine (jump_iff base (k := k) (o := n + 2) (by omega) (by omega)).trans ?_
  show _ ↔ -8589934592 ≤ ((4 * k : Nat) : Int) - _ ∧ ((4 * k : Nat) : Int) - _ < 8589934592
  omega

/-- The machine at the switch, whatever it scrutinises. -/
structure AtSwitch (base : CodePtr) (e : Emitter) (n : Nat) (m : Machine ω)
    (tblConst tblBlock : List Label) : Prop where
  sound : Backpatch.Sound layout e.patching
  switch : SwitchAt e n (tblConst.length + tblBlock.length * 65536) (tblConst ++ tblBlock)
  loaded : Loaded m.mem.code base e
  pc : m.pc = base + BitVec.ofNat 64 (4 * n)
  labels : ∀ l ∈ tblConst ++ tblBlock, ∃ pos, e.labelTable l = .Label_defined pos

theorem AtSwitch.start_le (h : AtSwitch base e n m tblConst tblBlock) :
    n + 2 ≤ e.outBuffer.length := by
  have hin := h.switch.inside
  omega

/-- A block of any tag. -/
def blockOf (t : Nat) : Heap := ⟨[some ⟨t, []⟩]⟩

/-- A table that can be accommodated jumps as meant. -/
theorem jumps_of_accommodated (h : AtSwitch base e n m tblConst tblBlock)
    (ha : Accommodated e (4 * (n + 2)) tblConst tblBlock) :
    JumpsAsMeant rt act base e m tblConst tblBlock where
  immediate := by
    intro i l pos hi hpos
    have hlt : i < tblConst.length := (List.getElem?_eq_some_iff.mp hi).1
    have hmem : l ∈ tblConst ++ tblBlock.take 256 :=
      List.mem_append_left _ (List.mem_of_getElem? hi)
    have htarget := (target_iff h.sound h.loaded h.start_le hpos).mpr (ha.near l hmem pos hpos)
    rw [immediate_step rt act (a := { m with accu := valInt i }) h.switch h.loaded h.pc hi hpos rfl,
      Nat.mod_eq_of_lt ha.consts, if_pos hlt, htarget]
  block := by
    intro v heap t l pos hblock htag ht256 ht hpos
    have hlt : t < tblBlock.length := (List.getElem?_eq_some_iff.mp ht).1
    have hin : t < tblBlock.length % 65536 := by
      have := ha.blocks
      omega
    have hmem : l ∈ tblConst ++ tblBlock.take 256 := by
      refine List.mem_append_right _ (List.mem_of_getElem? (i := t) ?_)
      rw [List.getElem?_take_of_lt ht256]
      exact ht
    have htarget := (target_iff h.sound h.loaded h.start_le hpos).mpr (ha.near l hmem pos hpos)
    rw [block_step rt act (a := { m with accu := v, mem := { m.mem with heap := heap } }) h.switch
      h.loaded h.pc ha.consts ht hpos hblock htag, if_pos hin, htarget]

theorem consts_of_jumps (h : AtSwitch base e n m tblConst tblBlock)
    (hj : JumpsAsMeant rt act base e m tblConst tblBlock) : tblConst.length < 65536 := by
  refine Nat.lt_of_not_le fun hle => ?_
  -- the entry 65535 is there, and no half of a sizes word exceeds it
  have hi : tblConst[65535]? = some tblConst[65535] := List.getElem?_eq_getElem (by omega)
  obtain ⟨pos, hpos⟩ := h.labels _ (List.mem_append_left _ (List.mem_of_getElem? hi))
  have hstep := immediate_step rt act
    (a := { m with accu := valInt (65535 : Nat) }) h.switch h.loaded h.pc hi hpos rfl
  rw [if_neg (by omega), hj.immediate _ _ _ hi hpos] at hstep
  cases hstep

/-- A `SWITCH` that jumps as meant has room for its blocks in 16 bits. -/
theorem blocks_of_jumps (h : AtSwitch base e n m tblConst tblBlock)
    (hj : JumpsAsMeant rt act base e m tblConst tblBlock) :
    min tblBlock.length 256 ≤ tblBlock.length % 65536 := by
  refine Nat.le_of_not_lt fun hlt => ?_
  -- the first tag past the half of the sizes word
  have ht : tblBlock[tblBlock.length % 65536]? = some tblBlock[tblBlock.length % 65536] :=
    List.getElem?_eq_getElem (by omega)
  obtain ⟨pos, hpos⟩ := h.labels _ (List.mem_append_right _ (List.mem_of_getElem? ht))
  have hstep := block_step rt act (a := { m with
      accu := .ptr 0 0, mem := { m.mem with heap := blockOf (tblBlock.length % 65536) } })
    h.switch h.loaded h.pc (consts_of_jumps h hj) ht hpos rfl rfl
  rw [if_neg (Nat.lt_irrefl _), hj.block (.ptr 0 0) (blockOf (tblBlock.length % 65536))
    (tblBlock.length % 65536) _ _ rfl rfl (by omega) ht hpos] at hstep
  cases hstep

/-- The labels of one that jumps as meant are near. -/
theorem near_of_jumps (h : AtSwitch base e n m tblConst tblBlock)
    (hj : JumpsAsMeant rt act base e m tblConst tblBlock) :
    ∀ l ∈ tblConst ++ tblBlock.take 256, Near e (4 * (n + 2)) l := by
  intro l hmem pos hpos
  have hconsts := consts_of_jumps h hj
  refine (target_iff h.sound h.loaded h.start_le hpos).mp ?_
  rcases List.mem_append.mp hmem with hmem | hmem
  · obtain ⟨i, hi⟩ := List.mem_iff_getElem?.mp hmem
    have hlt : i < tblConst.length := (List.getElem?_eq_some_iff.mp hi).1
    have hstep := immediate_step rt act (a := { m with accu := valInt i }) h.switch
      h.loaded h.pc hi hpos rfl
    rw [Nat.mod_eq_of_lt hconsts, if_pos hlt, hj.immediate _ _ _ hi hpos] at hstep
    have hm := Ctl.next.inj (Except.ok.inj hstep)
    exact (congrArg (fun a : Machine ω => a.pc) hm).symm
  · obtain ⟨t, ht⟩ := List.mem_iff_getElem?.mp hmem
    have ht256 : t < 256 := by
      have hlt := (List.getElem?_eq_some_iff.mp ht).1
      rw [List.length_take] at hlt
      omega
    rw [List.getElem?_take_of_lt ht256] at ht
    have hlt : t < tblBlock.length := (List.getElem?_eq_some_iff.mp ht).1
    have hblocks := blocks_of_jumps h hj
    have hstep := block_step rt act
      (a := { m with accu := .ptr 0 0, mem := { m.mem with heap := blockOf t } }) h.switch h.loaded
      h.pc hconsts ht hpos rfl rfl
    rw [if_pos (by omega), hj.block (.ptr 0 0) (blockOf t) _ _ _ rfl rfl ht256 ht hpos] at hstep
    have hm := Ctl.next.inj (Except.ok.inj hstep)
    exact (congrArg (fun a : Machine ω => a.pc) hm).symm

theorem atSwitch_of_emit {before after : List Instruction} (hbefore : emit before init = .ok e)
    (hall : emit (before ++ .Kswitch tblConst tblBlock :: after) init = .ok e')
    (hlabels : ∀ l ∈ tblConst ++ tblBlock, ∃ pos, e'.labelTable l = .Label_defined pos)
    (hl : Loaded m.mem.code base e') (hpc : m.pc = base + BitVec.ofNat 64 e.outPosition) :
    AtSwitch base e' e.outBuffer.length m tblConst tblBlock :=
  ⟨(emit_valid hall).sound, switch_emitted hbefore hall, hl, hpc, hlabels⟩

/-- **A SWITCH JUMPS WHERE THE EMITTER MEANT**, for every scrutinee of its tables,
    if and only if their lengths fit the sizes word and the labels are near. -/
theorem switch_jumps_iff (rt : Runtime ω) (act : Activation) (before after : List Instruction)
    (tblConst tblBlock : List Label) (e e' : Emitter) (base : CodePtr) (m : Machine ω)
    (hbefore : emit before init = .ok e)
    (hall : emit (before ++ .Kswitch tblConst tblBlock :: after) init = .ok e')
    (hlabels : ∀ l ∈ tblConst ++ tblBlock, ∃ pos, e'.labelTable l = .Label_defined pos)
    (hl : Loaded m.mem.code base e') (hpc : m.pc = base + BitVec.ofNat 64 e.outPosition) :
    JumpsAsMeant rt act base e' m tblConst tblBlock ↔
      Accommodated e' (e.outPosition + 8) tblConst tblBlock := by
  have hat := atSwitch_of_emit hbefore hall hlabels hl hpc
  have hstart : e.outPosition + 8 = 4 * (e.outBuffer.length + 2) := by
    unfold Emitter.outPosition
    omega
  rw [hstart]
  constructor
  · intro hj
    exact ⟨consts_of_jumps hat hj, blocks_of_jumps hat hj, near_of_jumps hat hj⟩
  · exact jumps_of_accommodated hat

/-! ## Two switches -/

/-- The words of a unit without slots, from `base` on. -/
def load (base : CodePtr) (words : List OpcodeWord) (p : CodePtr) : OpcodeWord :=
  words.getD ((p - base).toNat / 4) 0#32

theorem loaded_load (base : CodePtr) (e : Emitter) (hfits : e.outPosition < 9223372036854775808) :
    Loaded (load base e.outBuffer) base e where
  fits := hfits
  word := by
    intro k w hw _
    have hk : k < e.outBuffer.length := (List.getElem?_eq_some_iff.mp hw).1
    unfold Emitter.outPosition at hfits
    unfold load
    rw [BitVec.add_comm, BitVec.add_sub_cancel, BitVec.toNat_ofNat, Nat.mod_eq_of_lt (by omega),
      Nat.mul_div_cancel_left _ (by decide), List.getD_eq_getElem?_getD, hw]
    rfl

/-- At the start of an emitted unit. -/
def switching (e : Emitter) : Machine Unit where
  pc := 0x1000#64
  sp := []
  accu := valInt 0
  env := .atom 0
  extraArgs := 0#63
  mem :=
    { heap := ⟨[]⟩
      code := load 0x1000#64 e.outBuffer
      globalData := valUnit
      raiseUnhandled := valUnit }
  dom := domainOf [mainStack] 0

theorem emit_nil (e : Emitter) : emit [] e = .ok e := by rw [emit]

theorem emit_label (lbl : Label) (c : List Instruction) (e : Emitter) :
    emit (.Klabel lbl :: c) e = e.defineLabel lbl >>= emit c := by
  rw [emit]
  · rfl
  all_goals
    intros
    contradiction

/-- The emitter behind a label 0 at the very start. -/
def labelled : Emitter := init.setLabel 0 (.Label_defined 0)

theorem emit_labelled : emit [.Klabel 0] init = .ok labelled := by
  rw [emit_label]
  exact emit_nil labelled

/-- A switch back to label 0 and forward to label 1. -/
theorem switch_jumps_small : ∃ e',
    emit ([.Klabel 0] ++ .Kswitch [0, 1] [1] :: [.Klabel 1]) init = .ok e' ∧
    e'.labelTable 0 = .Label_defined 0 ∧ e'.labelTable 1 = .Label_defined 20 ∧
    JumpsAsMeant quiet soleActivation 0x1000#64 e' (switching e') [0, 1] [1] := by
  have hall : ∃ e', emit ([.Klabel 0] ++ .Kswitch [0, 1] [1] :: [.Klabel 1]) init = .ok e' ∧
      e'.labelTable 0 = .Label_defined 0 ∧ e'.labelTable 1 = .Label_defined 20 ∧
      e'.outPosition = 20 := by
    rw [emit_append_switch _ _ _ emit_labelled, emit_switch, emit_label]
    exact ⟨_, emit_nil _, rfl, rfl, rfl⟩
  obtain ⟨e', hall, h0, h1, hpos⟩ := hall
  have hnear : ∀ l ∈ [0, 1, 1], ∃ pos, e'.labelTable l = .Label_defined pos ∧ pos ≤ 20 := by
    intro l hl
    rcases List.mem_cons.mp hl with rfl | hl
    · exact ⟨0, h0, by decide⟩
    · obtain rfl : l = 1 := by simpa using hl
      exact ⟨20, h1, by decide⟩
  refine ⟨e', hall, h0, h1, (switch_jumps_iff quiet soleActivation [.Klabel 0] [.Klabel 1]
    [0, 1] [1] labelled e' 0x1000#64 (switching e') emit_labelled hall ?_
    (loaded_load _ _ (by rw [hpos]; decide)) rfl).mpr ⟨by decide, by decide, ?_⟩⟩
  · intro l hl
    obtain ⟨pos, hp, -⟩ := hnear l hl
    exact ⟨pos, hp⟩
  · intro l hl pos hp
    obtain ⟨pos', hp', hle⟩ := hnear l hl
    obtain rfl := LabelDefinition.Label_defined.inj (hp.symm.trans hp')
    show _ ≤ (pos : Int) - (8 : Nat) ∧ (pos : Int) - (8 : Nat) < _
    omega

/-- A switch on immediates only, with every entry the label 0 before it. -/
theorem backward_switch (tbl : List Label) (htbl : ∀ l ∈ tbl, l = 0) : ∃ e',
    emit ([.Klabel 0] ++ .Kswitch tbl [] :: []) init = .ok e' ∧
    e'.outPosition = 4 * (2 + tbl.length) ∧
    ∀ l ∈ tbl ++ [], e'.labelTable l = .Label_defined 0 := by
  obtain ⟨e', hall⟩ : ∃ e', emit (.Kswitch tbl [] :: []) labelled = .ok e' := by
    rw [emit_switch]
    exact ⟨_, emit_nil _⟩
  have hplaced := ((emit_valid emit_labelled).keeps (emit_grows hall)).placed (l := 0) rfl
  refine ⟨e', (emit_append_switch _ _ _ emit_labelled).trans hall, ?_, ?_⟩
  · rw [emit_switch, emit_nil] at hall
    rw [← Except.ok.inj hall]
    unfold Emitter.outPosition
    rw [(length_outLabels _ _ _).1, List.append_nil]
    rfl
  · intro l hl
    rw [List.append_nil] at hl
    rw [htbl l hl]
    have ht : (e'.labelTable 0).target = .placed 0 := hplaced
    cases hd : e'.labelTable 0 with
    | Label_defined pos =>
        rw [hd] at ht
        rw [Backpatch.Target.placed.inj ht]
    | Label_undefined ps =>
        rw [hd] at ht
        cases ht

/-- With 65536 entries for immediates the sizes word says that there are none, and
    one entry for blocks. -/
theorem switch_jumps_wide : ∃ e',
    emit ([.Klabel 0] ++ .Kswitch (List.replicate 65536 0) [] :: []) init = .ok e' ∧
    Loaded (switching e').mem.code 0x1000#64 e' ∧
    (switching e').pc = 0x1000#64 + BitVec.ofNat 64 labelled.outPosition ∧
    (∀ l ∈ List.replicate 65536 0 ++ [], e'.labelTable l = .Label_defined 0) ∧
    ¬ JumpsAsMeant quiet soleActivation 0x1000#64 e' (switching e') (List.replicate 65536 0) [] := by
  obtain ⟨e', hall, hpos, hlabels⟩ := backward_switch (List.replicate 65536 0)
    fun l hl => List.eq_of_mem_replicate hl
  rw [List.length_replicate] at hpos
  have hloaded : Loaded (switching e').mem.code 0x1000#64 e' :=
    loaded_load _ _ (by rw [hpos]; decide)
  refine ⟨e', hall, hloaded, rfl, hlabels, ?_⟩
  intro hj
  have hlt := consts_of_jumps (atSwitch_of_emit emit_labelled hall
    (fun l hl => ⟨0, hlabels l hl⟩) hloaded rfl) hj
  rw [List.length_replicate] at hlt
  exact Nat.lt_irrefl _ hlt

end CamlSwitch
