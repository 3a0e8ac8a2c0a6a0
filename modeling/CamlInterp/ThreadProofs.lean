import CamlInterp.EmitProofs
import CamlInterp.AdvanceProofs

/-! # Threading — instruction boundaries in `runtime/fix_code.c`

    `caml_thread_code` goes through a code array from opcode to opcode and
    replaces each by the offset of its code in the interpreter.  It has to know
    where an instruction ends; so has the emitter, and so has every case of the
    interpreter. -/

namespace CamlThread

open CellStore CamlValue CamlOpcode CamlMachine CamlControl CamlStep CamlEmit CamlAdvance

/-! ## `caml_thread_code` -/

/-- The opcode at `p`; a word that is none counts as `STOP`. -/
def instrAt (code : List OpcodeWord) (p : Nat) : C Opcode := do
  let w ← orUndefined code[p]?
  .ok ((decode w).getD .STOP)

/-- The position after the instruction at `p`. -/
def threadNext (code : List OpcodeWord) (p : Nat) (instr : Opcode) : C Nat :=
  match instr with
  | .SWITCH => do
      let sizes ← orUndefined code[p + 1]?
      .ok (p + 1 + 1 + ((sizes &&& 0xFFFF#32).toNat + (sizes >>> 16).toNat))
  | .CLOSUREREC => do
      let nfuncs ← orUndefined code[p + 1]?
      .ok (p + 1 + 1 + 1 + nfuncs.toNat)
  | instr => .ok (p + 1 + opcodeNargs instr)

/-- The loop, from position `p` on; `instrTable` is
    `caml_instr_table[instr] - caml_instr_base`. -/
def threadLoop (instrTable : Opcode → OpcodeWord) :
    Nat → Nat → List OpcodeWord → C (List OpcodeWord)
  | 0, _, _ => .error .diverged
  | fuel + 1, p, code =>
      if p < code.length then do
        let instr ← instrAt code p
        let code := code.set p (instrTable instr)
        threadLoop instrTable fuel (← threadNext code p instr) code
      else do
        camlAssert (p = code.length)
        .ok code

/-- `caml_thread_code`; every round moves on by a word at least. -/
def camlThreadCode (instrTable : Opcode → OpcodeWord) (code : List OpcodeWord) :
    C (List OpcodeWord) :=
  threadLoop instrTable (code.length + 1) 0 code

/-! ## One instruction -/

/-- An opcode with all its operands. -/
structure Whole (op : Opcode) (ops ws : List OpcodeWord) : Prop where
  words : ws = op.code :: ops
  length : ops.length = width op (ops.headD 0#32)

/-- `ws` with its opcode replaced. -/
def threaded (instrTable : Opcode → OpcodeWord) : List OpcodeWord → List OpcodeWord
  | [] => []
  | w :: ws => instrTable ((decode w).getD .STOP) :: ws

variable {op : Opcode} {ops ws : List OpcodeWord} {instrTable : Opcode → OpcodeWord}

/-- The loop steps over a whole instruction, wherever it stands. -/
theorem threadNext_whole (h : Whole op ops ws) (done rest : List OpcodeWord) (w : OpcodeWord) :
    threadNext (done ++ (w :: ops ++ rest)) done.length op = .ok (done.length + ws.length) := by
  have hlen : ws.length = ops.length + 1 := by rw [h.words, List.length_cons]
  have hfirst : ops ≠ [] → (done ++ (w :: ops ++ rest))[done.length + 1]?
      = some (ops.headD 0#32) := by
    intro hne
    cases ops with
    | nil => exact absurd rfl hne
    | cons o ops =>
        rw [List.getElem?_append_right (by omega), Nat.add_sub_cancel_left]
        rfl
  have hwidth := h.length
  rw [hlen, hwidth]
  cases op
  case SWITCH =>
    have hne : ops ≠ [] := by
      rintro rfl
      cases hwidth
    unfold threadNext
    rw [hfirst hne]
    show Except.ok _ = Except.ok _
    congr 1
    unfold width
    dsimp only
    omega
  case CLOSUREREC =>
    have hne : ops ≠ [] := by
      rintro rfl
      cases hwidth
    unfold threadNext
    rw [hfirst hne]
    show Except.ok _ = Except.ok _
    congr 1
    unfold width
    dsimp only
    omega
  all_goals exact congrArg Except.ok (Nat.add_right_comm _ _ _)

/-! ## A concatenation of instructions -/

/-- Nothing, or a whole instruction. -/
def Chunk (ws : List OpcodeWord) : Prop := ws = [] ∨ ∃ op ops, Whole op ops ws

theorem threaded_whole (h : Whole op ops ws) : threaded instrTable ws = instrTable op :: ops := by
  rw [h.words]
  show instrTable ((decode op.code).getD .STOP) :: ops = _
  rw [decode_code]
  rfl

theorem length_threaded (ws : List OpcodeWord) : (threaded instrTable ws).length = ws.length := by
  cases ws with
  | nil => rfl
  | cons w ws => rfl

/-- One round. -/
theorem threadLoop_round (op : Opcode) (fuel : Nat) {code : List OpcodeWord} {p q : Nat}
    (hp : p < code.length) (hinstr : instrAt code p = .ok op)
    (hnext : threadNext (code.set p (instrTable op)) p op = .ok q) :
    threadLoop instrTable (fuel + 1) p code
      = threadLoop instrTable fuel q (code.set p (instrTable op)) := by
  rw [threadLoop, if_pos hp, hinstr]
  show (threadNext (code.set p (instrTable op)) p op >>= _) = _
  rw [hnext]
  rfl

/-- One round, from a boundary to the next. -/
theorem threadLoop_whole (h : Whole op ops ws) (fuel : Nat) (done rest : List OpcodeWord) :
    threadLoop instrTable (fuel + 1) done.length (done ++ (ws ++ rest))
      = threadLoop instrTable fuel (done ++ threaded instrTable ws).length
        (done ++ threaded instrTable ws ++ rest) := by
  have hlen : ws.length = ops.length + 1 := by rw [h.words, List.length_cons]
  have hin : done.length < (done ++ (ws ++ rest)).length := by
    rw [List.length_append, List.length_append]
    omega
  have hinstr : instrAt (done ++ (ws ++ rest)) done.length = .ok op := by
    unfold instrAt
    rw [List.getElem?_append_right (Nat.le_refl _), Nat.sub_self, h.words]
    show Except.ok ((decode op.code).getD .STOP) = _
    rw [decode_code]
    rfl
  have hset : (done ++ (ws ++ rest)).set done.length (instrTable op)
      = done ++ (instrTable op :: ops ++ rest) := by
    rw [List.set_append_right _ _ (Nat.le_refl _), Nat.sub_self, h.words]
    rfl
  have hnext := threadNext_whole h done rest (instrTable op)
  rw [← hset] at hnext
  rw [threadLoop_round op fuel hin hinstr hnext, hset, List.length_append, length_threaded,
    threaded_whole h, List.append_assoc]

/-- The loop passes through a concatenation from boundary to boundary. -/
theorem threadLoop_passes (instrTable : Opcode → OpcodeWord) {chunks : List (List OpcodeWord)}
    (h : ∀ ws ∈ chunks, Chunk ws) {fuel : Nat} (hfuel : chunks.flatten.length < fuel)
    (done rest : List OpcodeWord) :
    ∃ fuel', fuel ≤ fuel' + chunks.flatten.length ∧
      threadLoop instrTable fuel done.length (done ++ (chunks.flatten ++ rest))
        = threadLoop instrTable fuel' (done ++ (chunks.map (threaded instrTable)).flatten).length
          (done ++ (chunks.map (threaded instrTable)).flatten ++ rest) := by
  induction chunks generalizing fuel done with
  | nil =>
      refine ⟨fuel, Nat.le_refl _, ?_⟩
      rw [List.map_nil, List.flatten_nil, List.append_nil, List.nil_append]
  | cons ws chunks ih =>
      have hrest : ∀ ws ∈ chunks, Chunk ws := fun ws hws => h ws (List.mem_cons_of_mem _ hws)
      rcases h ws List.mem_cons_self with rfl | ⟨op, ops, hw⟩
      · exact ih hrest hfuel done
      · have hlen : ws.length = ops.length + 1 := by rw [hw.words, List.length_cons]
        rw [List.flatten_cons, List.length_append] at hfuel ⊢
        obtain ⟨fuel, rfl⟩ : ∃ n, fuel = n + 1 := ⟨fuel - 1, by omega⟩
        have hless : chunks.flatten.length < fuel := by omega
        obtain ⟨fuel', hle, hloop⟩ := ih hrest hless (done ++ threaded instrTable ws)
        refine ⟨fuel', by omega, ?_⟩
        rw [List.append_assoc ws, threadLoop_whole hw, hloop, List.map_cons, List.flatten_cons,
          ← List.append_assoc done]

/-- The loop stops at the end of the array. -/
theorem threadLoop_end {fuel : Nat} (hfuel : 0 < fuel) (code : List OpcodeWord) :
    threadLoop instrTable fuel code.length code = .ok code := by
  obtain ⟨fuel, rfl⟩ : ∃ n, fuel = n + 1 := ⟨fuel - 1, by omega⟩
  rw [threadLoop, if_neg (Nat.lt_irrefl _), decide_eq_true rfl]
  rfl

/-! ## What the emitter writes -/

/-- The arguments of an instruction are what they stand for: a number of arguments
    is positive, an index or a size is not negative. -/
def Proper : Instruction → Prop
  | .Kacc n | .Kmakeblock n _ | .Kgetfield n | .Ksetfield n => 0 ≤ n
  | .Kapply n | .Kappterm n _ | .Kccall _ n => 1 ≤ n
  | _ => True

/-- The tables are not too long for their sizes. -/
def Bounded : Instruction → Prop
  | .Kswitch tblConst tblBlock => tblConst.length < 65536 ∧ tblBlock.length < 65536
  | .Kclosurerec lbls _ => lbls.length < 4294967296
  | _ => True

/-- The number of functions of a `CLOSUREREC` is an `int` of the interpreter. -/
def IntCount : Instruction → Prop
  | .Kclosurerec lbls _ => lbls.length < 2147483648
  | _ => True

/-- The opcode is one, and it is followed by as many words as belong to it. -/
def Fits (i : Encoding) : Prop :=
  ∃ op, i.opcode = opNum op ∧
    ((∀ w, (i.operands.map Operand.size).sum = width op w) ∨
      ∃ n os, i.operands = .int n :: os ∧
        (i.operands.map Operand.size).sum = width op (BitVec.ofInt 32 n))

theorem fits_of {i : Encoding} (op : Opcode) (hop : i.opcode = opNum op)
    (h : ∀ w, (i.operands.map Operand.size).sum = width op w) : Fits i := ⟨op, hop, .inl h⟩

theorem fits_bare (op : Opcode) (h : ∀ w, 0 = width op w) : Fits (bare op) := fits_of op rfl h

theorem fits_comp (c : IntegerComparison) : Fits (compEncoding c) := by
  cases c with
  | Ceq => exact fits_bare .EQ fun _ => rfl
  | Cne => exact fits_bare .NEQ fun _ => rfl
  | Clt => exact fits_bare .LTINT fun _ => rfl
  | Cle => exact fits_bare .LEINT fun _ => rfl
  | Cgt => exact fits_bare .GTINT fun _ => rfl
  | Cge => exact fits_bare .GEINT fun _ => rfl

/-- The opcode `j` further on. -/
def opAfter (op : Opcode) (j : Nat) : Opcode := opcodes.getD (op.ctorIdx + j) .STOP

/-- The number of operands is that of the table. -/
def tabled : Opcode → Bool
  | .SWITCH | .CLOSUREREC => false
  | _ => true

theorem width_tabled (h : tabled op = true) (w : OpcodeWord) : width op w = opcodeNargs op := by
  cases op
  case SWITCH | CLOSUREREC => cases h
  all_goals rfl

/-- One of the `k` opcodes from `op` on, all with `s` operands. -/
theorem fits_offset {k s : Nat} {n : Int} {os : List Operand}
    (h : ∀ j : Nat, j < k → opNum op + j = opNum (opAfter op j) ∧ tabled (opAfter op j) = true ∧
      opcodeNargs (opAfter op j) = s) (hs : (os.map Operand.size).sum = s) (h0 : 0 ≤ n)
    (hk : n < k) : Fits ⟨opNum op + n, os⟩ := by
  obtain ⟨j, rfl⟩ := Int.eq_ofNat_of_zero_le h0
  obtain ⟨hop, htab, hnargs⟩ := h j (by omega)
  refine fits_of (opAfter op j) hop fun w => ?_
  rw [width_tabled htab, hnargs]
  exact hs

/-- The same, counted from 1. -/
theorem fits_offset_one {k s : Nat} {n : Int} {os : List Operand}
    (h : ∀ j : Nat, j < k → opNum op + j = opNum (opAfter op j) ∧ tabled (opAfter op j) = true ∧
      opcodeNargs (opAfter op j) = s) (hs : (os.map Operand.size).sum = s) (h1 : 1 ≤ n)
    (hk : n ≤ k) : Fits ⟨opNum op + n - 1, os⟩ := by
  rw [Int.add_sub_assoc]
  exact fits_offset h hs (by omega) (by omega)

/-- The five ways to write a constant. -/
theorem fits_constEncoding {const0 constint atom0 atom getglobal : Opcode}
    (hconst0 : ∀ j : Nat, j < 4 → opNum const0 + j = opNum (opAfter const0 j) ∧
      tabled (opAfter const0 j) = true ∧ opcodeNargs (opAfter const0 j) = 0)
    (hconstint : ∀ w, 1 = width constint w) (hatom0 : ∀ w, 0 = width atom0 w)
    (hatom : ∀ w, 1 = width atom w) (hgetglobal : ∀ w, 1 = width getglobal w)
    (sc : StructuredConstant) : Fits (constEncoding const0 constint atom0 atom getglobal sc) := by
  unfold constEncoding
  split
  · split
    · split
      · next h => exact fits_offset hconst0 rfl h.1 (by omega)
      · exact fits_of constint rfl hconstint
    · exact fits_of getglobal rfl hgetglobal
  · exact fits_of constint rfl hconstint
  · split
    · exact fits_bare atom0 hatom0
    · exact fits_of atom rfl hatom
  · exact fits_of getglobal rfl hgetglobal

theorem fits_const (sc : StructuredConstant) :
    Fits (constEncoding .CONST0 .CONSTINT .ATOM0 .ATOM .GETGLOBAL sc) :=
  fits_constEncoding (by decide) (fun _ => rfl) (fun _ => rfl) (fun _ => rfl) (fun _ => rfl) sc

/-- The offset closures: three of them around `op`. -/
theorem fits_offsetclosure {before op after : Opcode}
    (hbefore : opNum op + Int.tdiv (-3) 3 = opNum before ∧ ∀ w, 0 = width before w)
    (hop : ∀ w, 0 = width op w)
    (hafter : opNum op + Int.tdiv 3 3 = opNum after ∧ ∀ w, 0 = width after w) {ofs : Int}
    (h : ofs = -3 ∨ ofs = 0 ∨ ofs = 3) : Fits ⟨opNum op + ofs.tdiv 3, []⟩ := by
  rcases h with rfl | rfl | rfl
  · exact fits_of before hbefore.1 hbefore.2
  · exact fits_of op rfl hop
  · exact fits_of after hafter.1 hafter.2

/-- The tables of a `SWITCH` are as long as its operand says. -/
theorem fits_switch {tblConst tblBlock : List Label} (hc : tblConst.length < 65536)
    (hb : tblBlock.length < 65536) :
    Fits ⟨opNum .SWITCH, [.int (tblConst.length + tblBlock.length * 65536),
      .labels (tblConst ++ tblBlock)]⟩ := by
  refine ⟨.SWITCH, rfl, .inr ⟨_, _, rfl, ?_⟩⟩
  have hand : (BitVec.ofInt 32 (tblConst.length + tblBlock.length * 65536) &&& 0xFFFF#32).toNat
      = tblConst.length := by
    rw [BitVec.toNat_and, BitVec.toNat_ofInt]
    refine (Nat.and_two_pow_sub_one_eq_mod _ 16).trans ?_
    omega
  have hshift : (BitVec.ofInt 32 (tblConst.length + tblBlock.length * 65536) >>> 16).toNat
      = tblBlock.length := by
    rw [BitVec.toNat_ushiftRight, BitVec.toNat_ofInt, Nat.shiftRight_eq_div_pow]
    omega
  show 1 + ((tblConst ++ tblBlock).length + 0) = 1 + _
  rw [hand, hshift, List.length_append, Nat.add_zero]

theorem fits_closurerec {lbls : List Label} (n : Int) (h : lbls.length < 4294967296) :
    Fits ⟨opNum .CLOSUREREC, [.int lbls.length, .int n, .labels lbls]⟩ := by
  refine ⟨.CLOSUREREC, rfl, .inr ⟨_, _, rfl, ?_⟩⟩
  have hcount : (BitVec.ofInt 32 (lbls.length : Int)).toNat = lbls.length := by
    rw [BitVec.ofInt_natCast, BitVec.toNat_ofNat, Nat.mod_eq_of_lt h]
  show 1 + (1 + (lbls.length + 0)) = 2 + (BitVec.ofInt 32 (lbls.length : Int)).toNat
  rw [hcount]
  omega

/-- Emitter and table agree on every instruction. -/
theorem encoding_fits {instr : Instruction} {i : Encoding} (hp : Proper instr)
    (hb : Bounded instr) (h : encoding instr = some i) : Fits i := by
  cases instr
  case Klabel | Kevent => cases h
  case Kraise k =>
    cases k
    all_goals
      obtain rfl := Option.some.inj h
      exact fits_bare _ fun _ => rfl
  all_goals obtain rfl := Option.some.inj h
  case Kpush | Krestart | Kvectlength | Kgetvectitem | Ksetvectitem | Kgetstringchar
      | Kgetbyteschar | Ksetbyteschar | Kboolnot | Kpoptrap | Kcheck_signals | Knegint | Kaddint
      | Ksubint | Kmulint | Kdivint | Kmodint | Kandint | Korint | Kxorint | Klslint | Klsrint
      | Kasrint | Kisint | Kisout | Kgetmethod | Kgetdynmet | Kperform | Kresume | Kstop =>
    exact fits_bare _ fun _ => rfl
  case Kacc n =>
    show Fits (if n < 8 then _ else _)
    split
    · next h => exact fits_offset (k := 8) (by decide) rfl hp h
    · exact fits_of .ACC rfl fun _ => rfl
  case Kenvacc n =>
    show Fits (if 1 ≤ n ∧ n ≤ 4 then _ else _)
    split
    · next h => exact fits_offset_one (k := 4) (by decide) rfl h.1 h.2
    · exact fits_of .ENVACC rfl fun _ => rfl
  case Kapply n =>
    show Fits (if n < 4 then _ else _)
    split
    · exact fits_offset_one (k := 3) (by decide) rfl hp (by omega)
    · exact fits_of .APPLY rfl fun _ => rfl
  case Kappterm n sz =>
    show Fits (if n < 4 then _ else _)
    split
    · exact fits_offset_one (k := 3) (s := 1) (by decide) rfl hp (by omega)
    · exact fits_of .APPTERM rfl fun _ => rfl
  case Koffsetclosure ofs =>
    show Fits (if ofs = -3 ∨ ofs = 0 ∨ ofs = 3 then _ else _)
    split
    · next h =>
        exact @fits_offsetclosure .OFFSETCLOSUREM3 _ .OFFSETCLOSURE3 ⟨rfl, fun _ => rfl⟩
          (fun _ => rfl) ⟨rfl, fun _ => rfl⟩ _ h
    · exact fits_of .OFFSETCLOSURE rfl fun _ => rfl
  case Kmakeblock n t =>
    have hp' : 0 ≤ n := hp
    show Fits (if n = 0 then if t = 0 then _ else _ else if n < 4 then _ else _)
    split
    · split
      · exact fits_bare _ fun _ => rfl
      · exact fits_of .ATOM rfl fun _ => rfl
    · split
      · exact fits_offset_one (k := 3) (s := 1) (by decide) rfl (by omega) (by omega)
      · exact fits_of .MAKEBLOCK rfl fun _ => rfl
  case Kgetfield n =>
    show Fits (if n < 4 then _ else _)
    split
    · next h => exact fits_offset (k := 4) (by decide) rfl hp h
    · exact fits_of .GETFIELD rfl fun _ => rfl
  case Ksetfield n =>
    show Fits (if n < 4 then _ else _)
    split
    · next h => exact fits_offset (k := 4) (by decide) rfl hp h
    · exact fits_of .SETFIELD rfl fun _ => rfl
  case Kmakefloatblock n =>
    show Fits (if n = 0 then _ else _)
    split
    · exact fits_bare _ fun _ => rfl
    · exact fits_of .MAKEFLOATBLOCK rfl fun _ => rfl
  case Kccall name n =>
    show Fits (if n ≤ 5 then _ else _)
    split
    · next h => exact fits_offset_one (k := 5) (s := 1) (by decide) rfl hp h
    · exact fits_of .C_CALLN rfl fun _ => rfl
  case Kswitch => exact fits_switch hb.1 hb.2
  case Kclosurerec => exact fits_closurerec _ hb
  case Kconst sc => exact fits_const sc
  case Kintcomp c => exact fits_comp c
  case Kpop => exact fits_of .POP rfl fun _ => rfl
  case Kassign => exact fits_of .ASSIGN rfl fun _ => rfl
  case Kpush_retaddr => exact fits_of .PUSH_RETADDR rfl fun _ => rfl
  case Kreturn => exact fits_of .RETURN rfl fun _ => rfl
  case Kgrab => exact fits_of .GRAB rfl fun _ => rfl
  case Kclosure => exact fits_of .CLOSURE rfl fun _ => rfl
  case Kgetglobal => exact fits_of .GETGLOBAL rfl fun _ => rfl
  case Ksetglobal => exact fits_of .SETGLOBAL rfl fun _ => rfl
  case Kgetfloatfield => exact fits_of .GETFLOATFIELD rfl fun _ => rfl
  case Ksetfloatfield => exact fits_of .SETFLOATFIELD rfl fun _ => rfl
  case Kbranch => exact fits_of .BRANCH rfl fun _ => rfl
  case Kbranchif | Kstrictbranchif => exact fits_of .BRANCHIF rfl fun _ => rfl
  case Kbranchifnot | Kstrictbranchifnot => exact fits_of .BRANCHIFNOT rfl fun _ => rfl
  case Kpushtrap => exact fits_of .PUSHTRAP rfl fun _ => rfl
  case Koffsetint => exact fits_of .OFFSETINT rfl fun _ => rfl
  case Koffsetref => exact fits_of .OFFSETREF rfl fun _ => rfl
  case Kgetpubmet => exact fits_of .GETPUBMET rfl fun _ => rfl
  case Kresumeterm => exact fits_of .RESUMETERM rfl fun _ => rfl
  case Kreperformterm => exact fits_of .REPERFORMTERM rfl fun _ => rfl

/-- In a finished code array `ws` is what `emit_instr` writes for `instr`; the
    words that a later label or the linker fills in may be anything. -/
def Writes (instr : Instruction) (ws : List OpcodeWord) : Prop :=
  ∃ before e e', emit before init = .ok e ∧ e.emitInstr instr = .ok e' ∧
    e'.outBuffer.length = e.outBuffer.length + ws.length ∧
    ∀ k w, Fixed e' (e.outBuffer.length + k) w → ws[k]? = some w

theorem wordOfBytes_opNum (op : Opcode) : wordOfBytes (opNum op) 0 0 0 = op.code := by
  have hlt : op.ctorIdx < 256 := by cases op <;> decide
  unfold opNum
  rw [wordOfBytes_opcode (by omega) (by omega), BitVec.ofInt_natCast]
  rfl

/-- The opcode and an integer behind it are never patched. -/
theorem outInstr_fixed {e : Emitter} (hv : Valid e) (i : Encoding) :
    Fixed (e.outInstr i) e.outBuffer.length (wordOfBytes i.opcode 0 0 0) ∧
      ∀ n os, i.operands = .int n :: os →
        Fixed (e.outInstr i) (e.outBuffer.length + 1) (BitVec.ofInt 32 n) := by
  have hg := (Emitter.Grows.refl e).out i.opcode
  have hv1 := hv.grows hg
  refine ⟨(out_fixed hv i.opcode).grows hv1 ((Emitter.Grows.refl _).outOperands _), ?_⟩
  intro n os hos
  have hfix := outInt_fixed hv1 n
  have hg2 := (Emitter.Grows.refl (e.out i.opcode)).outInt n
  rw [length_out] at hfix
  unfold Emitter.outInstr
  rw [hos]
  exact hfix.grows (hv1.grows hg2) ((Emitter.Grows.refl _).outOperands os)

/-- What is written for an encoding that fits is a whole instruction. -/
theorem outInstr_whole {e : Emitter} (hv : Valid e) {i : Encoding} (hf : Fits i)
    (hlen : ws.length = 1 + (i.operands.map Operand.size).sum)
    (hfixed : ∀ k w, Fixed (e.outInstr i) (e.outBuffer.length + k) w → ws[k]? = some w) :
    ∃ op ops, Whole op ops ws := by
  obtain ⟨op, hop, hfits⟩ := hf
  obtain ⟨hopcode, hint⟩ := outInstr_fixed hv i
  have hfirst := hfixed 0 _ hopcode
  rw [hop, wordOfBytes_opNum] at hfirst
  cases ws with
  | nil => cases hfirst
  | cons w ops =>
      obtain rfl := Option.some.inj hfirst
      rw [List.length_cons] at hlen
      refine ⟨op, ops, rfl, ?_⟩
      rcases hfits with hsum | ⟨n, os, hos, hsum⟩
      · have := hsum (ops.headD 0#32)
        omega
      · have hsecond := hfixed 1 _ (hint n os hos)
        have hhead : ops.headD 0#32 = BitVec.ofInt 32 n := by
          cases ops with
          | nil => cases hsecond
          | cons o ops => exact Option.some.inj hsecond
        rw [hhead]
        omega

/-- What an instruction writes is a whole instruction, or nothing. -/
theorem writes_chunk {instr : Instruction} (hp : Proper instr) (hb : Bounded instr)
    (h : Writes instr ws) : Chunk ws := by
  obtain ⟨before, e, e', hbefore, hinstr, hlen, hfixed⟩ := h
  have hv := emit_valid hbefore
  unfold Emitter.emitInstr at hinstr
  split at hinstr
  · -- a label writes nothing
    have hpos := (Emitter.defineLabel_kept hinstr).1
    unfold Emitter.outPosition at hpos
    exact .inl (List.length_eq_zero_iff.mp (by omega))
  · split at hinstr
    · next i hi =>
        obtain rfl := Except.ok.inj hinstr
        rw [length_outInstr] at hlen
        exact .inr (outInstr_whole hv (encoding_fits hp hb hi) (by omega) hfixed)
    · obtain rfl := Except.ok.inj hinstr
      exact .inl (List.length_eq_zero_iff.mp (by omega))

/-- Only a `CLOSUREREC` is written with 2^31 operands or more. -/
theorem encoding_size {instr : Instruction} {i : Encoding} (hb : Bounded instr)
    (hc : IntCount instr) (h : encoding instr = some i) :
    (i.operands.map Operand.size).sum < 2147483650 := by
  cases instr
  case Kswitch tblConst tblBlock =>
    obtain rfl := Option.some.inj h
    have hsum : tblConst.length < 65536 ∧ tblBlock.length < 65536 := hb
    show 1 + ((tblConst ++ tblBlock).length + 0) < _
    rw [List.length_append]
    omega
  case Kclosurerec lbls n =>
    obtain rfl := Option.some.inj h
    have hlen : lbls.length < 2147483648 := hc
    show 1 + (1 + (lbls.length + 0)) < _
    omega
  case Kconst sc =>
    obtain rfl := Option.some.inj h
    unfold constEncoding
    split
    · split
      · split <;> simp [Operand.size]
      · simp [Operand.size]
    · simp [Operand.size]
    · split <;> simp [Operand.size, bare]
    · simp [Operand.size]
  case Kmakeblock n t =>
    obtain rfl := Option.some.inj h
    split
    · split <;> simp [Operand.size, bare]
    · split <;> simp [Operand.size]
  case Kacc | Kenvacc | Kapply | Kappterm | Koffsetclosure | Kgetfield | Ksetfield
      | Kmakefloatblock | Kccall =>
    obtain rfl := Option.some.inj h
    split <;> simp [Operand.size, bare]
  case Kintcomp c =>
    obtain rfl := Option.some.inj h
    cases c <;> decide
  case Kraise k =>
    cases k <;> (obtain rfl := Option.some.inj h; decide)
  case Klabel | Kevent => cases h
  all_goals
    obtain rfl := Option.some.inj h
    simp [Operand.size, bare]

/-- An instruction takes less than 2^31 + 3 words. -/
theorem writes_length {instr : Instruction} (hb : Bounded instr) (hc : IntCount instr)
    (h : Writes instr ws) : ws.length < 2147483651 := by
  obtain ⟨before, e, e', hbefore, hinstr, hlen, -⟩ := h
  unfold Emitter.emitInstr at hinstr
  split at hinstr
  · have hpos := (Emitter.defineLabel_kept hinstr).1
    unfold Emitter.outPosition at hpos
    omega
  · split at hinstr
    · next i hi =>
        obtain rfl := Except.ok.inj hinstr
        have hsize := encoding_size hb hc hi
        rw [length_outInstr] at hlen
        omega
    · obtain rfl := Except.ok.inj hinstr
      omega

/-! ## The three together -/

/-- A code array, instruction by instruction. -/
def wordsOf (code : List (Instruction × List OpcodeWord)) : List OpcodeWord :=
  (code.map Prod.snd).flatten

/-- The same with the opcodes replaced. -/
def threadedWords (instrTable : Opcode → OpcodeWord)
    (code : List (Instruction × List OpcodeWord)) : List OpcodeWord :=
  (code.map fun x => threaded instrTable x.2).flatten

/-- Every piece of the array is written by `emit_instr`. -/
def Written (code : List (Instruction × List OpcodeWord)) : Prop :=
  ∀ x ∈ code, Proper x.1 ∧ Bounded x.1 ∧ Writes x.1 x.2

variable {code before after : List (Instruction × List OpcodeWord)}
  {x : Instruction × List OpcodeWord}

theorem Written.chunks (h : Written code) : ∀ ws ∈ code.map Prod.snd, Chunk ws := by
  intro ws hws
  obtain ⟨x, hx, rfl⟩ := List.mem_map.mp hws
  obtain ⟨hp, hb, hw⟩ := h x hx
  exact writes_chunk hp hb hw

theorem threadedWords_eq (instrTable : Opcode → OpcodeWord)
    (code : List (Instruction × List OpcodeWord)) :
    threadedWords instrTable code = ((code.map Prod.snd).map (threaded instrTable)).flatten := by
  unfold threadedWords
  rw [List.map_map]
  rfl

theorem length_threadedWords (instrTable : Opcode → OpcodeWord)
    (code : List (Instruction × List OpcodeWord)) :
    (threadedWords instrTable code).length = (wordsOf code).length := by
  induction code with
  | nil => rfl
  | cons x code ih =>
      show (threaded instrTable x.2 ++ threadedWords instrTable code).length
        = (x.2 ++ wordsOf code).length
      rw [List.length_append, List.length_append, length_threaded, ih]

theorem wordsOf_append (a b : List (Instruction × List OpcodeWord)) :
    wordsOf (a ++ b) = wordsOf a ++ wordsOf b := by
  unfold wordsOf
  rw [List.map_append, List.flatten_append]

/-- `caml_thread_code` comes by every boundary, with what is before it done. -/
theorem thread_reaches (instrTable : Opcode → OpcodeWord) (h : Written code)
    (hcode : code = before ++ after) :
    ∃ fuel, (wordsOf after).length < fuel ∧ camlThreadCode instrTable (wordsOf code)
      = threadLoop instrTable fuel (wordsOf before).length
        (threadedWords instrTable before ++ wordsOf after) := by
  subst hcode
  have hchunks : ∀ ws ∈ before.map Prod.snd, Chunk ws := by
    intro ws hws
    refine h.chunks ws ?_
    rw [List.map_append]
    exact List.mem_append_left _ hws
  have hfuel : (before.map Prod.snd).flatten.length < (wordsOf (before ++ after)).length + 1 := by
    rw [wordsOf_append, List.length_append]
    exact Nat.lt_succ_of_le (Nat.le_add_right _ _)
  obtain ⟨fuel, hle, hloop⟩ :=
    threadLoop_passes instrTable hchunks hfuel [] (wordsOf after)
  rw [List.nil_append, List.nil_append, ← threadedWords_eq, length_threadedWords] at hloop
  refine ⟨fuel, ?_, ?_⟩
  · rw [wordsOf_append, List.length_append] at hle
    have hbefore : (wordsOf before).length = (before.map Prod.snd).flatten.length := rfl
    omega
  · unfold camlThreadCode
    rw [← hloop, wordsOf_append]
    rfl

/-- The array with the words of `code` from `base` on. -/
def HeldAt (code : CodePtr → OpcodeWord) (base : CodePtr) (words : List OpcodeWord) : Prop :=
  ∀ k w, words[k]? = some w → code (base + BitVec.ofNat 64 (4 * k)) = w

/-- The machine leaves a whole instruction it falls through at the next one, if its
    operands are few enough to be counted by an `int`. -/
theorem falls_whole {ω : Type} {rt : Runtime ω} {act : Activation} {m m' : Machine ω}
    {base : CodePtr} {done rest : List OpcodeWord} (h : Whole op ops ws)
    (hsize : ws.length < 2147483651)
    (hheld : HeldAt m.mem.code base (done ++ (ws ++ rest)))
    (hpc : m.pc = base + BitVec.ofNat 64 (4 * done.length))
    (hf : FallsThrough rt op { m with toCore := m.toCore.advance })
    (hstep : machineStep rt act (.next m) = .ok (.next m')) :
    m'.pc = base + BitVec.ofNat 64 (4 * (done.length + ws.length)) := by
  have hword : ∀ j w, ws[j]? = some w → m.mem.code (past m.pc j) = w := by
    intro j w hj
    have hlt : j < ws.length := (List.getElem?_eq_some_iff.mp hj).1
    have hk : (done ++ (ws ++ rest))[done.length + j]? = some w := by
      rw [List.getElem?_append_right (Nat.le_add_right _ _), Nat.add_sub_cancel_left,
        List.getElem?_append_left hlt]
      exact hj
    rw [past_eq, hpc, BitVec.add_assoc, ← BitVec.ofNat_add, ← Nat.mul_add]
    exact hheld _ _ hk
  have hop : m.mem.code m.pc = op.code := hword 0 _ (by rw [h.words]; rfl)
  have hwidth : width op (m.mem.code (m.pc + 4#64)) = ops.length := by
    rw [h.length]
    cases hops : ops with
    | nil =>
        -- no operand is read
        have hzero := h.length
        rw [hops] at hzero
        cases op
        case SWITCH | CLOSUREREC => cases hzero
        all_goals rfl
    | cons o os =>
        have ho := hword 1 o (by rw [h.words, hops]; rfl)
        exact congrArg (width op) ho
  have hlen : ws.length = 1 + ops.length := by rw [h.words, List.length_cons, Nat.add_comm]
  have hcount : op = .CLOSUREREC → 0 ≤ (m.mem.code (m.pc + 4#64)).toInt := by
    intro hrec
    rw [hrec] at hwidth
    have hnum : 2 + (m.mem.code (m.pc + 4#64)).toNat = ops.length := hwidth
    rw [BitVec.toInt_eq_toNat_of_lt (by omega)]
    omega
  rw [falls_past hop hf hcount hstep, hwidth, past_eq, hpc, BitVec.add_assoc, ← BitVec.ofNat_add,
    ← Nat.mul_add, hlen]

/-- **INSTRUCTION BOUNDARIES AGREE**: on a concatenation of emitted instructions
    `caml_thread_code` replaces the opcodes and nothing else and stops at the end;
    at each instruction it moves on to where the interpreter does, if that falls
    through.  A `CLOSUREREC` has fewer than 2^32 functions, and fewer than 2^31 where
    the interpreter counts them. -/
theorem boundaries_agree (instrTable : Opcode → OpcodeWord)
    (code : List (Instruction × List OpcodeWord)) (h : Written code) :
    camlThreadCode instrTable (wordsOf code) = .ok (threadedWords instrTable code) ∧
    ∀ (before after : List (Instruction × List OpcodeWord)) (x : Instruction × List OpcodeWord),
      code = before ++ x :: after → x.2 ≠ [] → ∃ op : Opcode, x.2[0]? = some op.code ∧
      (∃ fuel, camlThreadCode instrTable (wordsOf code)
        = threadLoop instrTable fuel (wordsOf before).length
          (threadedWords instrTable before ++ wordsOf (x :: after))) ∧
      threadNext (threadedWords instrTable before ++ (threaded instrTable x.2 ++ wordsOf after))
        (wordsOf before).length op = .ok ((wordsOf before).length + x.2.length) ∧
      ∀ (ω : Type) (rt : Runtime ω) (act : Activation) (m m' : Machine ω) (base : CodePtr),
        IntCount x.1 → HeldAt m.mem.code base (wordsOf code) →
        m.pc = base + BitVec.ofNat 64 (4 * (wordsOf before).length) →
        FallsThrough rt op { m with toCore := m.toCore.advance } →
        machineStep rt act (.next m) = .ok (.next m') →
        m'.pc = base + BitVec.ofNat 64 (4 * ((wordsOf before).length + x.2.length)) := by
  constructor
  · obtain ⟨fuel, hlt, hloop⟩ := thread_reaches instrTable h (List.append_nil code).symm
    have hnil : wordsOf [] = [] := rfl
    rw [hloop, hnil, List.append_nil, ← length_threadedWords instrTable code]
    exact threadLoop_end (Nat.lt_of_le_of_lt (Nat.zero_le _) hlt) _
  · intro before after x hcode hne
    have hmem : x ∈ code := by
      rw [hcode]
      exact List.mem_append_right _ List.mem_cons_self
    obtain ⟨hp, hb, hw⟩ := h x hmem
    rcases writes_chunk hp hb hw with hnil | ⟨op, ops, hwhole⟩
    · exact absurd hnil hne
    · obtain ⟨fuel, -, hloop⟩ := thread_reaches instrTable h hcode
      refine ⟨op, by rw [hwhole.words]; rfl, ⟨fuel, hloop⟩, ?_, ?_⟩
      · rw [← length_threadedWords instrTable before, threaded_whole hwhole]
        exact threadNext_whole hwhole _ _ _
      · intro ω rt act m m' base hcount hheld hpc hf hstep
        rw [hcode, wordsOf_append] at hheld
        exact falls_whole hwhole (writes_length hb hcount hw) hheld hpc hf hstep

/-! ## Small and large -/

/-- The words of the first instruction, as they are written. -/
theorem writes_init {instr : Instruction} {e : Emitter} (h : init.emitInstr instr = .ok e) :
    Writes instr e.outBuffer := by
  refine ⟨[], init, e, by rw [emit], h, (Nat.zero_add _).symm, ?_⟩
  intro k w hfixed
  have hw := hfixed.settled.1
  rw [show init.outBuffer.length + k = k from Nat.zero_add k] at hw
  exact hw

/-- An `OFFSETINT` whose operand is the number of an opcode, and a `PUSH`. -/
theorem boundaries_agree_two :
    camlThreadCode (fun op => op.code + 1000#32) [Opcode.OFFSETINT.code, 9#32, Opcode.PUSH.code]
      = .ok [Opcode.OFFSETINT.code + 1000#32, 9#32, Opcode.PUSH.code + 1000#32] := by
  refine (boundaries_agree (fun op => op.code + 1000#32)
    [(.Koffsetint 9, [Opcode.OFFSETINT.code, 9#32]), (.Kpush, [Opcode.PUSH.code])] ?_).1
  intro x hx
  rcases List.mem_cons.mp hx with rfl | hx
  · exact ⟨trivial, trivial, writes_init (e := init.outInstr ⟨opNum .OFFSETINT, [.int 9]⟩) rfl⟩
  · obtain rfl := List.mem_singleton.mp hx
    exact ⟨trivial, trivial, writes_init (e := init.outInstr (bare .PUSH)) rfl⟩

/-- `caml_thread_code` goes forward. -/
theorem lt_threadNext {code : List OpcodeWord} {p q : Nat} (h : threadNext code p op = .ok q) :
    p < q := by
  unfold threadNext at h
  split at h
  · obtain ⟨sizes, -, h⟩ := bind_eq_ok.mp h
    have := Except.ok.inj h
    omega
  · obtain ⟨nfuncs, -, h⟩ := bind_eq_ok.mp h
    have := Except.ok.inj h
    omega
  · have := Except.ok.inj h
    omega

/-- What is behind the loop stays. -/
theorem threadLoop_keeps {fuel p k : Nat} {code r : List OpcodeWord}
    (h : threadLoop instrTable fuel p code = .ok r) (hk : k < p) : r[k]? = code[k]? := by
  induction fuel generalizing p code with
  | zero => cases h
  | succ fuel ih =>
      rw [threadLoop] at h
      split at h
      · obtain ⟨instr, -, h⟩ := bind_eq_ok.mp h
        obtain ⟨q, hq, h⟩ := bind_eq_ok.mp h
        have hlt := lt_threadNext hq
        rw [ih h (by omega)]
        exact List.getElem?_set_ne (by omega)
      · obtain ⟨-, -, h⟩ := bind_eq_ok.mp h
        rw [← Except.ok.inj h]

/-- Labels that are all ahead are written as holes. -/
theorem outLabels_holes (org : Nat) {lbls : List Label} {e : Emitter}
    (h : ∀ l ∈ lbls, ∃ ps, e.labelTable l = .Label_undefined ps) :
    (e.outLabels org lbls).outBuffer = e.outBuffer ++ List.replicate lbls.length 0#32 := by
  induction lbls generalizing e with
  | nil => exact (List.append_nil _).symm
  | cons lbl lbls ih =>
      obtain ⟨ps, hps⟩ := h lbl List.mem_cons_self
      have hstep : Emitter.outLabelWithOrig org e lbl
          = (e.setLabel lbl (.Label_undefined ((e.outPosition, org) :: ps))).outInt 0 := by
        unfold Emitter.outLabelWithOrig
        rw [hps]
      show ((Emitter.outLabelWithOrig org e lbl).outLabels org lbls).outBuffer = _
      rw [ih, hstep]
      · show (e.outBuffer ++ [0#32]) ++ _ = _
        rw [List.append_assoc, List.length_cons, List.replicate_succ]
        rfl
      · intro l hl
        rw [hstep]
        show ∃ ps', (if l = lbl then _ else _) = _
        split
        · exact ⟨_, rfl⟩
        · exact h l (List.mem_cons_of_mem _ hl)

/-- The words of a `CLOSUREREC` of `n` functions whose labels are all ahead. -/
def recWords (n : Nat) (nvars : Int) : List OpcodeWord :=
  [Opcode.CLOSUREREC.code, BitVec.ofInt 32 n, BitVec.ofInt 32 nvars] ++ List.replicate n 0#32

/-- The words of a `CLOSUREREC` of many functions. -/
theorem writes_recWords (n : Nat) (nvars : Int) :
    Writes (.Kclosurerec (List.replicate n 0) nvars) (recWords n nvars) := by
  have hbuffer : (init.outInstr ⟨opNum .CLOSUREREC, [.int (List.replicate n 0 : List Label).length,
      .int nvars, .labels (List.replicate n 0)]⟩).outBuffer = recWords n nvars := by
    refine (outLabels_holes _ fun l _ => ⟨[], rfl⟩).trans ?_
    show ([wordOfBytes (opNum .CLOSUREREC) 0 0 0] ++ [wordOfBytes _ _ _ _] ++ [wordOfBytes _ _ _ _])
      ++ _ = _
    rw [wordOfBytes_int, wordOfBytes_int, List.length_replicate]
    rfl
  have hwrites : Writes (.Kclosurerec (List.replicate n 0) nvars) _ := writes_init rfl
  rw [hbuffer] at hwrites
  exact hwrites

/-- As many functions as make the count wrap around to 0. -/
theorem closurerec_mistaken {n : Nat} (hn : 0 < n) (hmod : n % 4294967296 = 0) :
    ∃ ws, Writes (.Kclosurerec (List.replicate n 0) 0) ws ∧
      camlThreadCode (fun _ => 1#32) ws ≠ .ok (threaded (fun _ => 1#32) ws) := by
  have hcount : BitVec.ofInt 32 (n : Int) = 0#32 := by
    apply BitVec.eq_of_toNat_eq
    rw [BitVec.ofInt_natCast, BitVec.toNat_ofNat, hmod]
    rfl
  have hwrites := writes_recWords n 0
  unfold recWords at hwrites
  rw [hcount] at hwrites
  refine ⟨_, hwrites, ?_⟩
  intro hthread
  obtain ⟨k, rfl⟩ : ∃ k, n = k + 1 := ⟨n - 1, by omega⟩
  have hlen : (Opcode.CLOSUREREC.code :: 0#32 :: 0#32 :: 0#32 :: List.replicate k 0#32).length
      = k + 4 := by
    rw [List.length_cons, List.length_cons, List.length_cons, List.length_cons,
      List.length_replicate]
  have hlen' : (1#32 :: 0#32 :: 0#32 :: 0#32 :: List.replicate k 0#32).length = k + 4 := hlen
  -- two rounds: the second one takes the first table entry for an opcode
  have hfirst : threadLoop (fun _ => 1#32) (k + 4 + 1) 0
      (Opcode.CLOSUREREC.code :: 0#32 :: 0#32 :: 0#32 :: List.replicate k 0#32)
        = threadLoop (fun _ => 1#32) (k + 4) 3
          (1#32 :: 0#32 :: 0#32 :: 0#32 :: List.replicate k 0#32) :=
    threadLoop_round .CLOSUREREC (k + 4) (by rw [hlen]; omega) rfl rfl
  have hsecond : threadLoop (fun _ => 1#32) (k + 3 + 1) 3
      (1#32 :: 0#32 :: 0#32 :: 0#32 :: List.replicate k 0#32)
        = threadLoop (fun _ => 1#32) (k + 3) 4
          (1#32 :: 0#32 :: 0#32 :: 1#32 :: List.replicate k 0#32) :=
    threadLoop_round .ACC0 (k + 3) (by rw [hlen']; omega) rfl rfl
  change threadLoop (fun _ => 1#32) ((Opcode.CLOSUREREC.code :: 0#32 :: 0#32 :: 0#32 ::
    List.replicate k 0#32).length + 1) 0 (Opcode.CLOSUREREC.code :: 0#32 :: 0#32 :: 0#32 ::
    List.replicate k 0#32) = _ at hthread
  rw [hlen, hfirst, hsecond] at hthread
  have hword := threadLoop_keeps (k := 3) hthread (by decide)
  cases hword

/-- A machine at 0x1000, where these words are, with two values to capture. -/
def atWords (ws : List OpcodeWord) : Machine Unit where
  pc := 0x1000#64
  sp := [valUnit]
  accu := valUnit
  env := valUnit
  extraArgs := 0#63
  mem := {
    heap := ⟨[]⟩
    code := fun pc => ws.getD ((pc - 0x1000#64).toNat / 4) 0#32
    globalData := valUnit
    raiseUnhandled := valUnit }
  dom := domainOf [mainStack] 0

theorem held_atWords {ws : List OpcodeWord} (h : ws.length < 4294967296) :
    HeldAt (atWords ws).mem.code 0x1000#64 ws := by
  intro k w hk
  have hlt : k < ws.length := (List.getElem?_eq_some_iff.mp hk).1
  have hindex : (0x1000#64 + BitVec.ofNat 64 (4 * k) - 0x1000#64).toNat / 4 = k := by
    rw [BitVec.add_comm, BitVec.add_sub_cancel, BitVec.toNat_ofNat]
    omega
  show ws.getD ((0x1000#64 + BitVec.ofNat 64 (4 * k) - 0x1000#64).toNat / 4) 0#32 = w
  rw [hindex, List.getD_eq_getElem?_getD, hk]
  rfl

/-- 2863311531 functions are -1431655765 as an `int`, and `nfuncs * 3 - 1` is 0: the
    block has room for the two variables and the first function, and `pc` moves back. -/
theorem closurerec_moves_back :
    ∃ m', machineStep quiet soleActivation (.next (atWords (recWords 2863311531 2)))
        = .ok (.next m') ∧ m'.pc = 0x100c#64 + BitVec.ofInt 64 (4 * -1431655765) :=
  ⟨_, rfl, rfl⟩

/-- Instructions the emitter accepts and that are gone wrong with: 2^32 functions,
    whose number is written as 0; a call without arguments, which is written as an
    `APPLY` that lacks its operand; and 2863311531 functions, which `caml_thread_code`
    passes by and after which `pc` is elsewhere. -/
theorem boundaries_differ :
    (∃ ws, Writes (.Kclosurerec (List.replicate 4294967296 0) 0) ws ∧
      camlThreadCode (fun _ => 1#32) ws ≠ .ok (threaded (fun _ => 1#32) ws)) ∧
    (∃ ws, Writes (.Kapply 0) ws ∧
      camlThreadCode (fun _ => 1#32) ws ≠ .ok (threaded (fun _ => 1#32) ws)) ∧
    ∃ ws m', Writes (.Kclosurerec (List.replicate 2863311531 0) 2) ws ∧
      HeldAt (atWords ws).mem.code 0x1000#64 ws ∧
      machineStep quiet soleActivation (.next (atWords ws)) = .ok (.next m') ∧
      m'.pc ≠ 0x1000#64 + BitVec.ofNat 64 (4 * ws.length) := by
  refine ⟨closurerec_mistaken (by decide) (by decide), ⟨[Opcode.APPLY.code],
    writes_init (e := init.out (opNum .APPLY1 + 0 - 1)) rfl, fun h => ?_⟩, ?_⟩
  · cases h
  · have hlen : (recWords 2863311531 2).length = 2863311534 := by
      unfold recWords
      rw [List.length_append, List.length_replicate]
      rfl
    obtain ⟨m', hstep, hpc⟩ := closurerec_moves_back
    refine ⟨_, m', writes_recWords _ _, held_atWords (by omega), hstep, ?_⟩
    rw [hpc, hlen]
    decide

end CamlThread
