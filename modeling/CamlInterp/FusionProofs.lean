import CamlInterp.RelatedProofs
import CamlInterp.StepProofs

/-! # Superinstructions and the sequences they replace

    The emitter writes one instruction where the compiler produced two, and an
    instruction with the operand built in where there is a general one.  The two
    codes stand at different addresses of one code array; what they do is
    compared from the same registers, with `pc` at the end of each code.

    C code called on the way sees the two apart by the words saved on the stack:
    the address to return to, and for `C_CALLN` one more copy of `accu`.  It is
    assumed not to look at them (`StackBlind`). -/

namespace CamlFusion

open CellStore CamlValue CamlOpcode CamlMachine CamlInstr CamlControl CamlStep Related

variable {ω : Type}

/-! ## Code -/

/-- An instruction with its operands. -/
structure Instr where
  op : Opcode
  args : List OpcodeWord

/-- The words of some instructions. -/
def wordsOf : List Instr → List OpcodeWord
  | [] => []
  | i :: is => i.op.code :: i.args ++ wordsOf is

/-- The code array holds `ws` from `pc` on. -/
def Holds (code : CodePtr → OpcodeWord) : CodePtr → List OpcodeWord → Prop
  | _, [] => True
  | pc, w :: ws => code pc = w ∧ Holds code (pc + 4#64) ws

/-- The address behind `ws`. -/
def behind (pc : CodePtr) : List OpcodeWord → CodePtr
  | [] => pc
  | _ :: ws => behind (pc + 4#64) ws

theorem behind_append (pc : CodePtr) (ws ws' : List OpcodeWord) :
    behind pc (ws ++ ws') = behind (behind pc ws) ws' := by
  induction ws generalizing pc with
  | nil => rfl
  | cons w ws ih => exact ih (pc + 4#64)

theorem holds_append {code : CodePtr → OpcodeWord} {pc : CodePtr} {ws ws' : List OpcodeWord}
    (h : Holds code pc (ws ++ ws')) : Holds code pc ws ∧ Holds code (behind pc ws) ws' := by
  induction ws generalizing pc with
  | nil => exact ⟨trivial, h⟩
  | cons w ws ih =>
      obtain ⟨hw, hrest⟩ := h
      obtain ⟨h1, h2⟩ := ih hrest
      exact ⟨⟨hw, h1⟩, h2⟩

/-- The instructions that have an operand of `gen` built in. -/
def fixed : Opcode → List (Opcode × OpcodeWord)
  | .ACC => [(.ACC0, 0), (.ACC1, 1), (.ACC2, 2), (.ACC3, 3), (.ACC4, 4), (.ACC5, 5), (.ACC6, 6),
      (.ACC7, 7)]
  | .ENVACC => [(.ENVACC1, 1), (.ENVACC2, 2), (.ENVACC3, 3), (.ENVACC4, 4)]
  | .OFFSETCLOSURE => [(.OFFSETCLOSUREM3, -3), (.OFFSETCLOSURE0, 0), (.OFFSETCLOSURE3, 3)]
  | .CONSTINT => [(.CONST0, 0), (.CONST1, 1), (.CONST2, 2), (.CONST3, 3)]
  | .ATOM => [(.ATOM0, 0)]
  | .GETFIELD => [(.GETFIELD0, 0), (.GETFIELD1, 1), (.GETFIELD2, 2), (.GETFIELD3, 3)]
  | .SETFIELD => [(.SETFIELD0, 0), (.SETFIELD1, 1), (.SETFIELD2, 2), (.SETFIELD3, 3)]
  | _ => []

/-- What an instruction goes on with after a push, and the number of operands. -/
def pushing : Opcode → Option (Opcode × Nat)
  | .PUSHACC0 => some (.ACC0, 0)
  | .PUSHACC1 => some (.ACC1, 0)
  | .PUSHACC2 => some (.ACC2, 0)
  | .PUSHACC3 => some (.ACC3, 0)
  | .PUSHACC4 => some (.ACC4, 0)
  | .PUSHACC5 => some (.ACC5, 0)
  | .PUSHACC6 => some (.ACC6, 0)
  | .PUSHACC7 => some (.ACC7, 0)
  | .PUSHACC => some (.ACC, 1)
  | .PUSHENVACC1 => some (.ENVACC1, 0)
  | .PUSHENVACC2 => some (.ENVACC2, 0)
  | .PUSHENVACC3 => some (.ENVACC3, 0)
  | .PUSHENVACC4 => some (.ENVACC4, 0)
  | .PUSHENVACC => some (.ENVACC, 1)
  | .PUSHOFFSETCLOSUREM3 => some (.OFFSETCLOSUREM3, 0)
  | .PUSHOFFSETCLOSURE0 => some (.OFFSETCLOSURE0, 0)
  | .PUSHOFFSETCLOSURE3 => some (.OFFSETCLOSURE3, 0)
  | .PUSHOFFSETCLOSURE => some (.OFFSETCLOSURE, 1)
  | .PUSHGETGLOBAL => some (.GETGLOBAL, 1)
  | .PUSHGETGLOBALFIELD => some (.GETGLOBALFIELD, 2)
  | .PUSHATOM0 => some (.ATOM0, 0)
  | .PUSHATOM => some (.ATOM, 1)
  | .PUSHCONST0 => some (.CONST0, 0)
  | .PUSHCONST1 => some (.CONST1, 0)
  | .PUSHCONST2 => some (.CONST2, 0)
  | .PUSHCONST3 => some (.CONST3, 0)
  | .PUSHCONSTINT => some (.CONSTINT, 1)
  | _ => none

/-- `i` stands for the instructions `is`. -/
inductive StandsFor : Instr → List Instr → Prop where
  | operand {op gen : Opcode} {n : OpcodeWord} : (op, n) ∈ fixed gen →
      StandsFor ⟨op, []⟩ [⟨gen, [n]⟩]
  | push {op plain : Opcode} {args : List OpcodeWord} : pushing op = some (plain, args.length) →
      StandsFor ⟨op, args⟩ [⟨.PUSH, []⟩, ⟨plain, args⟩]
  | getglobalfield (g n : OpcodeWord) :
      StandsFor ⟨.GETGLOBALFIELD, [g, n]⟩ [⟨.GETGLOBAL, [g]⟩, ⟨.GETFIELD, [n]⟩]
  | makeblock {op : Opcode} {n : OpcodeWord} (tag : OpcodeWord) :
      (op, n) ∈ [(Opcode.MAKEBLOCK1, 1), (.MAKEBLOCK2, 2), (.MAKEBLOCK3, 3)] →
      StandsFor ⟨op, [tag]⟩ [⟨.MAKEBLOCK, [n, tag]⟩]
  | cCall {op : Opcode} {n : OpcodeWord} (prim : OpcodeWord) :
      (op, n) ∈ [(Opcode.C_CALL1, 1), (.C_CALL2, 2), (.C_CALL3, 3), (.C_CALL4, 4),
        (.C_CALL5, 5)] →
      StandsFor ⟨op, [prim]⟩ [⟨.C_CALLN, [n, prim]⟩]

/-! ## Bodies that only read their operands at `pc` -/

/-- The same registers at another address. -/
def withPc (p : CodePtr) (c : Core) : Core := { c with pc := p }

/-- `f` neither reads nor moves `pc`. -/
def PcBlind (f : Core → C Core) : Prop := ∀ p c, f (withPc p c) = (f c).map (withPc p)

/-- The body `b`, behind an opcode at the operands `ws`, does `f` and steps over
    them. -/
def Reads (ws : List OpcodeWord) (b f : Core → C Core) : Prop :=
  ∀ c, Holds c.mem.code c.pc ws → b c = (f c).map (withPc (behind c.pc ws))

theorem pcBlind_acc (n : Int) : PcBlind (acc n) := by
  intro p c
  unfold acc
  show (spAt c.sp n >>= _) = _
  cases spAt c.sp n with
  | error e => rfl
  | ok v => rfl

theorem pcBlind_envacc (n : Int) : PcBlind (envacc n) := by
  intro p c
  unfold envacc
  show (field c.mem.heap c.env n >>= _) = _
  cases field c.mem.heap c.env n with
  | error e => rfl
  | ok v => rfl

theorem pcBlind_offsetclosure (n : Int) : PcBlind (offsetclosure n) := by
  intro p c
  unfold offsetclosure
  show (ptrAdd c.env n >>= _) = _
  cases ptrAdd c.env n with
  | error e => rfl
  | ok v => rfl

theorem pcBlind_getfield (n : Int) : PcBlind (getfield n) := by
  intro p c
  unfold getfield
  show (field c.mem.heap c.accu n >>= _) = _
  cases field c.mem.heap c.accu n with
  | error e => rfl
  | ok v => rfl

/-- `SETFIELD` does not look at `pc`. -/
theorem pcBlind_setfield (n : Int) : PcBlind (setfield n) := by
  intro p c
  unfold setfield
  show (spAt c.sp 0 >>= _) = _
  cases spAt c.sp 0 with
  | error e => rfl
  | ok v =>
      show (setField c.mem.heap c.accu n v >>= _) = Except.map _ (setField _ _ _ v >>= _)
      cases setField c.mem.heap c.accu n v with
      | error e => rfl
      | ok heap =>
          show (spDrop c.sp 1 >>= _) = Except.map _ (spDrop c.sp 1 >>= _)
          cases spDrop c.sp 1 with
          | error e => rfl
          | ok sp => rfl

theorem pcBlind_const (n : Int) : PcBlind (const n) := fun _ _ => rfl

theorem pcBlind_atom (n : Int) : PcBlind (atom n) := fun _ _ => rfl

/-- `accu = Field(caml_global_data, n)`. -/
def global (n : Int) (c : Core) : C Core := do
  .ok { c with accu := ← field c.mem.heap c.mem.globalData n }

theorem pcBlind_global (n : Int) : PcBlind (global n) := by
  intro p c
  unfold global
  show (field c.mem.heap c.mem.globalData n >>= _) = _
  cases field c.mem.heap c.mem.globalData n with
  | error e => rfl
  | ok v => rfl

/-- `accu = Field(Field(caml_global_data, g), n)`. -/
def globalField (g n : Int) (c : Core) : C Core := global g c >>= getfield n

theorem PcBlind.bind {f g : Core → C Core} (hf : PcBlind f) (hg : PcBlind g) :
    PcBlind (fun c => f c >>= g) := by
  intro p c
  show (f (withPc p c) >>= g) = (f c >>= g).map (withPc p)
  rw [hf p c]
  cases f c with
  | error e => rfl
  | ok c' => exact hg p c'

theorem PcBlind.push {f : Core → C Core} (hf : PcBlind f) : PcBlind (pushThen f) :=
  fun p c => hf p { c with sp := c.accu :: c.sp }

/-- A body with its operand built in. -/
theorem PcBlind.reads {f : Core → C Core} (hf : PcBlind f) : Reads [] f f :=
  fun c _ => hf c.pc c

/-- A body that takes one operand. -/
theorem reads_operand {f : Int → Core → C Core} (hf : ∀ n, PcBlind (f n)) (w : OpcodeWord) :
    Reads [w] (fun c => f c.operand.toInt c.advance) (f w.toInt) := by
  rintro c ⟨hw, -⟩
  show f (c.mem.code c.pc).toInt c.advance = _
  rw [hw]
  exact hf w.toInt (c.pc + 4#64) c

theorem Reads.push {ws : List OpcodeWord} {b f : Core → C Core} (h : Reads ws b f) :
    Reads ws (pushThen b) (pushThen f) :=
  fun c hc => h { c with sp := c.accu :: c.sp } hc

/-- The case of `op` is `b` and `Next`. -/
def HasBody (op : Opcode) (b : Core → C Core) : Prop :=
  ∀ {ω : Type} (rt : Runtime ω) act m, CamlUpstream.exec rt act op m = thenNext b m

/-- What an instruction does to the registers, `pc` apart. -/
structure Does (i : Instr) (f : Core → C Core) : Prop where
  blind : PcBlind f
  body : ∃ b, HasBody i.op b ∧ Reads i.args b f

/-- `GETGLOBALFIELD` reads its two operands. -/
theorem getglobalfield_reads (g n : OpcodeWord) :
    Reads [g, n] getglobalfield (globalField g.toInt n.toInt) := by
  rintro c ⟨hg, hn, -⟩
  show (getglobal c >>= getfieldOperand) = (global g.toInt c >>= getfield n.toInt).map _
  have hfirst : getglobal c = (global g.toInt c).map (withPc (c.pc + 4#64)) :=
    reads_operand pcBlind_global g c ⟨hg, trivial⟩
  rw [hfirst]
  cases hc : global g.toInt c with
  | error e => rfl
  | ok c' =>
      -- the first read leaves the code array alone
      have hcode : c'.mem.code = c.mem.code := by
        obtain ⟨v, -, hv⟩ := bind_eq_ok.mp hc
        rw [← Except.ok.inj hv]
      show getfieldOperand (withPc (c.pc + 4#64) c') = (getfield n.toInt c').map _
      have hsecond := reads_operand pcBlind_getfield n (withPc (c.pc + 4#64) c')
        ⟨by rw [← hn]; exact congrFun hcode _, trivial⟩
      refine hsecond.trans ?_
      rw [pcBlind_getfield n.toInt]
      cases getfield n.toInt c' with
      | error e => rfl
      | ok c'' => rfl

/-- `SETFIELD` is `SETFIELDn` of its operand. -/
theorem setfieldOperand_eq (c : Core) :
    setfieldOperand c = setfield c.operand.toInt c.advance := by
  refine Eq.trans ?_ (pcBlind_setfield c.operand.toInt (c.pc + 4#64) c).symm
  show (setfield c.operand.toInt c >>= _) = _
  cases hc : setfield c.operand.toInt c with
  | error e => rfl
  | ok c' =>
      have hpc : c'.pc = c.pc := by
        obtain ⟨v, -, hv⟩ := bind_eq_ok.mp hc
        obtain ⟨heap, -, hh⟩ := bind_eq_ok.mp hv
        obtain ⟨sp, -, hsp⟩ := bind_eq_ok.mp hh
        rw [← Except.ok.inj hsp]
      show Except.ok c'.advance = Except.ok (withPc (c.pc + 4#64) c')
      rw [← hpc]
      rfl

theorem ptrAdd_zero (v : Value) : ptrAdd v 0 = .ok v := by
  cases v with
  | ptr b ofs =>
      show Except.ok (Value.ptr b (ofs + 0)) = _
      rw [Int.add_zero]
  | word w =>
      show Except.ok (Value.word (w + 0#64)) = _
      rw [BitVec.add_zero]
  | undef => rfl
  | atom tag => rfl
  | stk s => rfl

theorem offsetclosure0_eq : offsetclosure0 = offsetclosure 0 := by
  funext c
  unfold offsetclosure0 offsetclosure
  rw [ptrAdd_zero]
  rfl

/-- An instruction with an operand built in does what the general one does. -/
theorem does_fixed {op gen : Opcode} {n : OpcodeWord} (h : (op, n) ∈ fixed gen) :
    ∃ f, Does ⟨op, []⟩ f ∧ Does ⟨gen, [n]⟩ f := by
  have family : ∀ f : Int → Core → C Core, (∀ k, PcBlind (f k)) →
      HasBody op (f n.toInt) → HasBody gen (fun c => f c.operand.toInt c.advance) →
      ∃ f, Does ⟨op, []⟩ f ∧ Does ⟨gen, [n]⟩ f := by
    intro f hf hop hgen
    exact ⟨f n.toInt, ⟨hf _, _, hop, (hf _).reads⟩, ⟨hf _, _, hgen, reads_operand hf n⟩⟩
  cases gen with
  | ACC =>
      simp only [fixed, List.mem_cons, Prod.mk.injEq, List.not_mem_nil, or_false] at h
      rcases h with ⟨rfl, rfl⟩ | ⟨rfl, rfl⟩ | ⟨rfl, rfl⟩ | ⟨rfl, rfl⟩ | ⟨rfl, rfl⟩ | ⟨rfl, rfl⟩ |
        ⟨rfl, rfl⟩ | ⟨rfl, rfl⟩
      all_goals exact family acc pcBlind_acc (fun _ _ _ => rfl) (fun _ _ _ => rfl)
  | ENVACC =>
      simp only [fixed, List.mem_cons, Prod.mk.injEq, List.not_mem_nil, or_false] at h
      rcases h with ⟨rfl, rfl⟩ | ⟨rfl, rfl⟩ | ⟨rfl, rfl⟩ | ⟨rfl, rfl⟩
      all_goals exact family envacc pcBlind_envacc (fun _ _ _ => rfl) (fun _ _ _ => rfl)
  | OFFSETCLOSURE =>
      simp only [fixed, List.mem_cons, Prod.mk.injEq, List.not_mem_nil, or_false] at h
      rcases h with ⟨rfl, rfl⟩ | ⟨rfl, rfl⟩ | ⟨rfl, rfl⟩
      · exact family offsetclosure pcBlind_offsetclosure (fun _ _ _ => rfl) (fun _ _ _ => rfl)
      · -- `accu = env` is spelled without the addition
        refine family offsetclosure pcBlind_offsetclosure (fun rt act m => ?_) (fun _ _ _ => rfl)
        exact congrArg (fun b => thenNext b m) offsetclosure0_eq
      · exact family offsetclosure pcBlind_offsetclosure (fun _ _ _ => rfl) (fun _ _ _ => rfl)
  | CONSTINT =>
      simp only [fixed, List.mem_cons, Prod.mk.injEq, List.not_mem_nil, or_false] at h
      rcases h with ⟨rfl, rfl⟩ | ⟨rfl, rfl⟩ | ⟨rfl, rfl⟩ | ⟨rfl, rfl⟩
      all_goals exact family const pcBlind_const (fun _ _ _ => rfl) (fun _ _ _ => rfl)
  | ATOM =>
      simp only [fixed, List.mem_cons, Prod.mk.injEq, List.not_mem_nil, or_false] at h
      obtain ⟨rfl, rfl⟩ := h
      exact family atom pcBlind_atom (fun _ _ _ => rfl) (fun _ _ _ => rfl)
  | GETFIELD =>
      simp only [fixed, List.mem_cons, Prod.mk.injEq, List.not_mem_nil, or_false] at h
      rcases h with ⟨rfl, rfl⟩ | ⟨rfl, rfl⟩ | ⟨rfl, rfl⟩ | ⟨rfl, rfl⟩
      all_goals exact family getfield pcBlind_getfield (fun _ _ _ => rfl) (fun _ _ _ => rfl)
  | SETFIELD =>
      have hset : HasBody .SETFIELD (fun c => setfield c.operand.toInt c.advance) :=
        fun _ _ m => congrArg (fun b => thenNext b m) (funext setfieldOperand_eq)
      simp only [fixed, List.mem_cons, Prod.mk.injEq, List.not_mem_nil, or_false] at h
      rcases h with ⟨rfl, rfl⟩ | ⟨rfl, rfl⟩ | ⟨rfl, rfl⟩ | ⟨rfl, rfl⟩
      all_goals exact family setfield pcBlind_setfield (fun _ _ _ => rfl) hset
  | _ => exact absurd h List.not_mem_nil

/-- An instruction that pushes goes on like the one without the push. -/
theorem does_pushing {op plain : Opcode} {args : List OpcodeWord}
    (h : pushing op = some (plain, args.length)) :
    ∃ f, Does ⟨plain, args⟩ f ∧ Does ⟨op, args⟩ (pushThen f) := by
  have family : ∀ (p : Opcode) (k : Nat) (b f : Core → C Core),
      pushing op = some (p, k) → PcBlind f → (args.length = k → Reads args b f) →
      HasBody p b → HasBody op (pushThen b) →
      ∃ f, Does ⟨plain, args⟩ f ∧ Does ⟨op, args⟩ (pushThen f) := by
    intro p k b f hp hf hr hplain hop
    obtain ⟨rfl, hk⟩ := Prod.mk.inj (Option.some.inj (hp.symm.trans h))
    have hreads := hr hk.symm
    exact ⟨f, ⟨hf, b, hplain, hreads⟩, ⟨hf.push, _, hop, hreads.push⟩⟩
  have nullary : ∀ (p : Opcode) (f : Core → C Core), pushing op = some (p, 0) → PcBlind f →
      HasBody p f → HasBody op (pushThen f) →
      ∃ f, Does ⟨plain, args⟩ f ∧ Does ⟨op, args⟩ (pushThen f) := by
    intro p f hp hf
    refine family p 0 f f hp hf (fun hargs => ?_)
    rw [List.length_eq_zero_iff.mp hargs]
    exact hf.reads
  have unary : ∀ (p : Opcode) (f : Int → Core → C Core), pushing op = some (p, 1) →
      (∀ n, PcBlind (f n)) → HasBody p (fun c => f c.operand.toInt c.advance) →
      HasBody op (pushThen (fun c => f c.operand.toInt c.advance)) →
      ∃ f, Does ⟨plain, args⟩ f ∧ Does ⟨op, args⟩ (pushThen f) := by
    intro p f hp hf
    refine family p 1 _ (f (args.headD 0).toInt) hp (hf _) (fun hargs => ?_)
    obtain ⟨w, rfl⟩ := List.length_eq_one_iff.mp hargs
    exact reads_operand hf w
  cases op with
  | PUSHACC0 => exact nullary .ACC0 (acc 0) rfl (pcBlind_acc 0) (fun _ _ _ => rfl) (fun _ _ _ => rfl)
  | PUSHACC1 => exact nullary .ACC1 (acc 1) rfl (pcBlind_acc 1) (fun _ _ _ => rfl) (fun _ _ _ => rfl)
  | PUSHACC2 => exact nullary .ACC2 (acc 2) rfl (pcBlind_acc 2) (fun _ _ _ => rfl) (fun _ _ _ => rfl)
  | PUSHACC3 => exact nullary .ACC3 (acc 3) rfl (pcBlind_acc 3) (fun _ _ _ => rfl) (fun _ _ _ => rfl)
  | PUSHACC4 => exact nullary .ACC4 (acc 4) rfl (pcBlind_acc 4) (fun _ _ _ => rfl) (fun _ _ _ => rfl)
  | PUSHACC5 => exact nullary .ACC5 (acc 5) rfl (pcBlind_acc 5) (fun _ _ _ => rfl) (fun _ _ _ => rfl)
  | PUSHACC6 => exact nullary .ACC6 (acc 6) rfl (pcBlind_acc 6) (fun _ _ _ => rfl) (fun _ _ _ => rfl)
  | PUSHACC7 => exact nullary .ACC7 (acc 7) rfl (pcBlind_acc 7) (fun _ _ _ => rfl) (fun _ _ _ => rfl)
  | PUSHACC => exact unary .ACC acc rfl pcBlind_acc (fun _ _ _ => rfl) (fun _ _ _ => rfl)
  | PUSHENVACC1 =>
      exact nullary .ENVACC1 _ rfl (pcBlind_envacc 1) (fun _ _ _ => rfl) (fun _ _ _ => rfl)
  | PUSHENVACC2 =>
      exact nullary .ENVACC2 _ rfl (pcBlind_envacc 2) (fun _ _ _ => rfl) (fun _ _ _ => rfl)
  | PUSHENVACC3 =>
      exact nullary .ENVACC3 _ rfl (pcBlind_envacc 3) (fun _ _ _ => rfl) (fun _ _ _ => rfl)
  | PUSHENVACC4 =>
      exact nullary .ENVACC4 _ rfl (pcBlind_envacc 4) (fun _ _ _ => rfl) (fun _ _ _ => rfl)
  | PUSHENVACC => exact unary .ENVACC envacc rfl pcBlind_envacc (fun _ _ _ => rfl) (fun _ _ _ => rfl)
  | PUSHOFFSETCLOSUREM3 =>
      exact nullary .OFFSETCLOSUREM3 _ rfl (pcBlind_offsetclosure (-3)) (fun _ _ _ => rfl)
        (fun _ _ _ => rfl)
  | PUSHOFFSETCLOSURE0 =>
      exact nullary .OFFSETCLOSURE0 offsetclosure0 rfl (fun _ _ => rfl) (fun _ _ _ => rfl)
        (fun _ _ _ => rfl)
  | PUSHOFFSETCLOSURE3 =>
      exact nullary .OFFSETCLOSURE3 _ rfl (pcBlind_offsetclosure 3) (fun _ _ _ => rfl)
        (fun _ _ _ => rfl)
  | PUSHOFFSETCLOSURE =>
      exact unary .OFFSETCLOSURE offsetclosure rfl pcBlind_offsetclosure (fun _ _ _ => rfl)
        (fun _ _ _ => rfl)
  | PUSHGETGLOBAL =>
      exact unary .GETGLOBAL global rfl pcBlind_global (fun _ _ _ => rfl) (fun _ _ _ => rfl)
  | PUSHGETGLOBALFIELD =>
      refine family .GETGLOBALFIELD 2 getglobalfield
        (globalField (args.headD 0).toInt (args.tail.headD 0).toInt) rfl
        ((pcBlind_global _).bind (pcBlind_getfield _)) (fun hargs => ?_) (fun _ _ _ => rfl)
        (fun _ _ _ => rfl)
      match args, hargs with
      | [g, n], _ => exact getglobalfield_reads g n
  | PUSHATOM0 => exact nullary .ATOM0 _ rfl (pcBlind_atom 0) (fun _ _ _ => rfl) (fun _ _ _ => rfl)
  | PUSHATOM => exact unary .ATOM atom rfl pcBlind_atom (fun _ _ _ => rfl) (fun _ _ _ => rfl)
  | PUSHCONST0 => exact nullary .CONST0 _ rfl (pcBlind_const 0) (fun _ _ _ => rfl) (fun _ _ _ => rfl)
  | PUSHCONST1 => exact nullary .CONST1 _ rfl (pcBlind_const 1) (fun _ _ _ => rfl) (fun _ _ _ => rfl)
  | PUSHCONST2 => exact nullary .CONST2 _ rfl (pcBlind_const 2) (fun _ _ _ => rfl) (fun _ _ _ => rfl)
  | PUSHCONST3 => exact nullary .CONST3 _ rfl (pcBlind_const 3) (fun _ _ _ => rfl) (fun _ _ _ => rfl)
  | PUSHCONSTINT => exact unary .CONSTINT const rfl pcBlind_const (fun _ _ _ => rfl) (fun _ _ _ => rfl)
  | _ => exact nomatch h

/-! ## Steps -/

/-- Run for a number of steps. -/
def steps (rt : Runtime ω) (act : Activation) : Nat → Ctl (Machine ω) → C (Ctl (Machine ω))
  | 0, c => .ok c
  | n + 1, c => machineStep rt act c >>= steps rt act n

variable {rt : Runtime ω} {act : Activation} {m : Machine ω} {i : Instr} {f : Core → C Core}

/-- A step executes the instruction at `pc`. -/
theorem step_instr (rt : Runtime ω) (act : Activation) (h : Holds m.mem.code m.pc (wordsOf [i])) :
    machineStep rt act (.next m)
        = CamlUpstream.exec rt act i.op { m with toCore := withPc (m.pc + 4#64) m.toCore } ∧
      Holds m.mem.code (m.pc + 4#64) i.args := by
  have hop : executing (.next m) = some i.op := by
    show decode (m.mem.code m.pc) = _
    rw [h.1]
    exact decode_code i.op
  have hargs : Holds m.mem.code (m.pc + 4#64) (i.args ++ []) := h.2
  rw [List.append_nil] at hargs
  exact ⟨machineStep_executing hop, hargs⟩

/-- The machine with the registers `c`, at `pc`. -/
def resume (m : Machine ω) (pc : CodePtr) (c : Core) : Ctl (Machine ω) :=
  .next { m with toCore := withPc pc c }

/-- The step of an instruction that only changes the registers and the heap. -/
theorem Does.step (rt : Runtime ω) (act : Activation) (hd : Does i f) (h : Holds m.mem.code m.pc (wordsOf [i])) :
    machineStep rt act (.next m)
      = (f m.toCore).map (resume m (behind m.pc (wordsOf [i]))) := by
  obtain ⟨b, hbody, hreads⟩ := hd.body
  obtain ⟨hstep, hargs⟩ := step_instr rt act h
  have hwords : behind m.pc (wordsOf [i]) = behind (m.pc + 4#64) i.args :=
    congrArg (behind (m.pc + 4#64)) (List.append_nil i.args)
  rw [hstep, hbody rt act, hwords]
  show (b (withPc (m.pc + 4#64) m.toCore) >>= _) >>= _ = _
  rw [hreads (withPc (m.pc + 4#64) m.toCore) hargs, hd.blind]
  cases f m.toCore with
  | error e => rfl
  | ok c => rfl

/-- A sequence of two instructions does one after the other. -/
theorem Does.pair (rt : Runtime ω) (act : Activation) {j : Instr} {g : Core → C Core} (hd : Does i f) (hd' : Does j g)
    (hcode : ∀ {c c'}, f c = .ok c' → c'.mem.code = c.mem.code)
    (h : Holds m.mem.code m.pc (wordsOf [i, j])) :
    steps rt act 2 (.next m)
      = (f m.toCore >>= g).map (resume m (behind m.pc (wordsOf [i, j]))) := by
  have hwords : wordsOf [i, j] = wordsOf [i] ++ wordsOf [j] := by
    simp [wordsOf]
  rw [hwords] at h ⊢
  obtain ⟨hi, hj⟩ := holds_append h
  rw [behind_append]
  show machineStep rt act (.next m) >>= _ = _
  rw [hd.step rt act hi]
  cases hf : f m.toCore with
  | error e => rfl
  | ok c =>
      rw [← hcode hf] at hj
      have hstep := hd'.step rt act
        (m := { m with toCore := withPc (behind m.pc (wordsOf [i])) c }) hj
      show machineStep rt act (.next { m with toCore := withPc _ c }) >>= Except.ok
        = (g c).map _
      rw [hstep, hd'.blind]
      cases g c with
      | error e => rfl
      | ok c' => rfl

/-! ## C code that does not look at the running stack -/

/-- The domain with the words `ws` saved on the running stack. -/
def withWords (ws : List Value) (d : Domain ω) : Domain ω :=
  match d.pool.get d.currentStack with
  | some i => { d with pool := d.pool.put d.currentStack { i with words := ws } }
  | none => d

/-- An answer of C code, with the words `ws` on the running stack. -/
def answerWith (ws : List Value) : CResult ω → CResult ω
  | .value v mem d => .value v mem (withWords ws d)
  | .raised e mem d => .raised e mem (withWords ws d)

/-- C code neither reads nor writes the words it finds saved on the running
    stack; it may move the stack. -/
structure StackBlind (rt : Runtime ω) : Prop where
  pending : ∀ mem d ws, rt.processPendingActions mem (withWords ws d)
    = (rt.processPendingActions mem d).map (answerWith ws)
  primitive : ∀ prim args mem d ws, rt.primitive prim args mem (withWords ws d)
    = (rt.primitive prim args mem d).map (answerWith ws)

theorem withWords_of_get {ws : List Value} {d : Domain ω} {i : StackInfo}
    (h : d.pool.get d.currentStack = some i) :
    withWords ws d
      = { d with pool := d.pool.put d.currentStack { i with words := ws } } := by
  unfold withWords
  rw [h]

/-- Of two stores to the running stack the second one counts. -/
theorem withWords_withWords (ws ws' : List Value) (d : Domain ω) :
    withWords ws (withWords ws' d) = withWords ws d := by
  cases h : d.pool.get d.currentStack with
  | none =>
      have hd : ∀ ws, withWords ws d = d := by
        intro ws
        unfold withWords
        rw [h]
      rw [hd, hd]
  | some i =>
      rw [withWords_of_get h, withWords_of_get h]
      refine (withWords_of_get (Store.get_put_self _ h)).trans ?_
      dsimp only
      rw [Store.put_put]

/-- Saving words fails only when there is no running stack. -/
theorem saveSp_eq (ws : List Value) (d : Domain ω) :
    d.saveSp ws = (d.stack d.currentStack).map (fun _ => withWords ws d) := by
  unfold Domain.saveSp Domain.stack
  cases h : d.pool.get d.currentStack with
  | none => rfl
  | some i =>
      show Except.ok _ = Except.ok (withWords ws d)
      rw [withWords_of_get h]

/-- What has been stored in the running stack is loaded. -/
theorem loadSp_withWords (ws : List Value) (d : Domain ω) :
    (withWords ws d).loadSp = (d.stack d.currentStack).map (fun _ => ws) := by
  unfold Domain.loadSp Domain.stack
  cases h : d.pool.get d.currentStack with
  | none =>
      unfold withWords
      rw [h]
      show (orUndefined (d.pool.get d.currentStack) >>= _) = _
      rw [h]
      rfl
  | some i =>
      rw [withWords_of_get h]
      show (orUndefined ((d.pool.put d.currentStack { i with words := ws }).get d.currentStack)
        >>= _) = _
      rw [Store.get_put_self _ h]
      rfl

/-- Machines that differ in `pc` and in the words saved on the running stack. -/
structure Alike (m m' : Machine ω) : Prop where
  accu : m'.accu = m.accu
  env : m'.env = m.env
  sp : m'.sp = m.sp
  extraArgs : m'.extraArgs = m.extraArgs
  mem : m'.mem = m.mem
  dom : withWords [] m'.dom = withWords [] m.dom

theorem Alike.words {m m' : Machine ω} (h : Alike m m') (ws : List Value) :
    withWords ws m'.dom = withWords ws m.dom := by
  rw [← withWords_withWords ws [] m'.dom, h.dom, withWords_withWords]

variable {m' : Machine ω}

/-- The machine at another address. -/
def moved (p : CodePtr) (m : Machine ω) : Machine ω := { m with toCore := withPc p m.toCore }

theorem alike_moved (p : CodePtr) (m : Machine ω) : Alike m (moved p m) :=
  ⟨rfl, rfl, rfl, rfl, rfl, rfl⟩

theorem moved_alike (p q : CodePtr) (m : Machine ω) : Alike (moved p m) (moved q m) :=
  ⟨rfl, rfl, rfl, rfl, rfl, rfl⟩

/-- Saving `sp` leaves domains that differ in the saved words alone. -/
theorem Alike.saveSp (h : Alike m m') (ws ws' : List Value) :
    Both (fun d d' => d = withWords ws m.dom ∧ d' = withWords ws' m.dom) (m.dom.saveSp ws)
      (m'.dom.saveSp ws') := by
  have hlive := congrArg Domain.loadSp h.dom
  rw [loadSp_withWords, loadSp_withWords] at hlive
  rw [saveSp_eq, saveSp_eq, h.words]
  cases hs : m.dom.stack m.dom.currentStack with
  | error e =>
      cases hs' : m'.dom.stack m'.dom.currentStack with
      | error e' =>
          rw [hs, hs'] at hlive
          rw [Except.error.inj hlive]
          exact Both.error e
      | ok i' =>
          rw [hs, hs'] at hlive
          exact nomatch hlive
  | ok i =>
      cases hs' : m'.dom.stack m'.dom.currentStack with
      | error e' =>
          rw [hs, hs'] at hlive
          exact nomatch hlive
      | ok i' => exact Both.ok ⟨rfl, rfl⟩

/-- The words on top of `sp`, when both stacks can be read. -/
def SameBelow (sp : List Value) (d d' : Domain ω) : Prop :=
  Both (fun ws ws' => ∃ top top', ws = top ++ sp ∧ ws' = top' ++ sp) d.loadSp d'.loadSp

theorem sameBelow_withWords (top top' sp : List Value) (d : Domain ω) :
    SameBelow sp (withWords (top ++ sp) d) (withWords (top' ++ sp) d) := by
  unfold SameBelow
  rw [loadSp_withWords, loadSp_withWords]
  exact Both.map (fun _ => ⟨top, top', rfl, rfl⟩) _

/-- Both stops for pending actions come back, or both raise the same exception. -/
inductive Stops (m m' : Machine ω) :
    Machine ω ⊕ Value × Mem × Domain ω → Machine ω ⊕ Value × Mem × Domain ω → Prop where
  | back {a b : Machine ω} : Alike a b → a.pc = m.pc → b.pc = m'.pc → a.sp = m.sp →
      a.env = m.env → a.extraArgs = m.extraArgs → Stops m m' (.inl a) (.inl b)
  | raised {e : Value} {mem : Mem} {d d' : Domain ω} : SameBelow m.sp d d' →
      Stops m m' (.inr (e, mem, d)) (.inr (e, mem, d'))

/-- A stop for pending actions, from two machines that differ in the saved words. -/
theorem enterGc_alike (hb : StackBlind rt) (h : Alike m m') :
    Both (Stops m m') (enterGc rt m) (enterGc rt m') := by
  refine (h.saveSp _ _).bind ?_
  rintro d d' ⟨rfl, rfl⟩
  rw [hb.pending, hb.pending, h.mem, h.accu, h.env, h.sp]
  cases rt.processPendingActions m.mem m.dom with
  | error e => exact Both.error e
  | ok r =>
      cases r with
      | raised e mem d =>
          exact Both.ok (Stops.raised (sameBelow_withWords [m.accu, m.env, ofCode m.pc]
            [m.accu, m.env, ofCode m'.pc] m.sp d))
      | value v mem d =>
          show Both _ ((withWords _ d).loadSp >>= _) ((withWords _ d).loadSp >>= _)
          rw [loadSp_withWords, loadSp_withWords]
          cases d.stack d.currentStack with
          | error e => exact Both.error e
          | ok i =>
              refine Both.ok (Stops.back ⟨rfl, rfl, rfl, h.extraArgs, rfl, ?_⟩ rfl rfl rfl rfl rfl)
              show withWords [] (withWords _ d) = withWords [] (withWords _ d)
              rw [withWords_withWords, withWords_withWords]

/-- All the stops of one allocation, from two such machines. -/
theorem gcLoop_alike (hb : StackBlind rt) (n : Nat) (h : Alike m m') :
    Both (Stops m m') (gcLoop rt n m) (gcLoop rt n m') := by
  induction n generalizing m m' with
  | zero => exact Both.ok (Stops.back h rfl rfl rfl rfl rfl)
  | succ n ih =>
      refine (enterGc_alike hb h).bind ?_
      rintro _ _ (⟨hab, hpc, hpc', hsp, henv, hextra⟩ | ⟨hbelow⟩)
      · refine (ih hab).mono ?_
        rintro _ _ (⟨hab2, hpc2, hpc2', hsp2, henv2, hextra2⟩ | ⟨hbelow⟩)
        · exact Stops.back hab2 (hpc2.trans hpc) (hpc2'.trans hpc') (hsp2.trans hsp)
            (henv2.trans henv) (hextra2.trans hextra)
        · exact Stops.raised (by rw [← hsp]; exact hbelow)
      · exact Both.ok (Stops.raised hbelow)

/-- The two codes end alike: each at its end, or both raising the same exception
    over the stack `sp` of the start. -/
inductive EndsAlike (p q : CodePtr) (sp : List Value) :
    Ctl (Machine ω) → Ctl (Machine ω) → Prop where
  | goesOn {m m' : Machine ω} : m.pc = p → m'.pc = q → Alike m m' →
      EndsAlike p q sp (.next m) (.next m')
  | raises {m m' : Machine ω} {top top' : List Value} : m'.accu = m.accu → m'.env = m.env →
      m'.extraArgs = m.extraArgs → m.sp = top ++ sp → m'.sp = top' ++ sp →
      EndsAlike p q sp (.raiseNotrace m) (.raiseNotrace m')

/-- An exception of a pending action is raised with the registers the stop was made
    with. -/
theorem reenter_ok (rt : Runtime ω) (m : Machine ω) (e : Value) (mem : Mem) {d : Domain ω}
    {sp : List Value} (h : d.loadSp = .ok sp) : ∃ m1, reenter rt m e mem d = .ok (.raiseNotrace m1) ∧
      m1.accu = e ∧ m1.env = m.env ∧ m1.extraArgs = m.extraArgs ∧ m1.sp = sp := by
  unfold reenter
  rw [h]
  simp only [bind, Except.bind]
  have hregs : (checkTrapBarrier rt { m with sp := sp, accu := e, mem := mem, dom := d }).accu = e ∧
      (checkTrapBarrier rt { m with sp := sp, accu := e, mem := mem, dom := d }).env = m.env ∧
      (checkTrapBarrier rt { m with sp := sp, accu := e, mem := mem, dom := d }).extraArgs
        = m.extraArgs ∧
      (checkTrapBarrier rt { m with sp := sp, accu := e, mem := mem, dom := d }).sp = sp := by
    unfold checkTrapBarrier
    split
    · exact ⟨rfl, rfl, rfl, rfl⟩
    · exact ⟨rfl, rfl, rfl, rfl⟩
  split
  · exact ⟨_, rfl, hregs⟩
  · exact ⟨_, rfl, hregs⟩

/-- It is raised alike from two machines with the same words below the saved ones. -/
theorem reenter_alike {p q : CodePtr} {sp : List Value} {e : Value} {mem mem' : Mem}
    {d d' : Domain ω} (henv : m'.env = m.env) (hextra : m'.extraArgs = m.extraArgs)
    (h : SameBelow sp d d') :
    Both (EndsAlike p q sp) (reenter rt m e mem d) (reenter rt m' e mem' d') := by
  unfold SameBelow at h
  cases hd : d.loadSp with
  | error f =>
      rw [hd] at h
      cases hd' : d'.loadSp with
      | error f' =>
          rw [hd'] at h
          cases h
          unfold reenter
          rw [hd, hd']
          exact Both.error f
      | ok ws => rw [hd'] at h; cases h
  | ok ws =>
      obtain ⟨ws', hws', top, top', rfl, rfl⟩ := h.exists_right hd
      obtain ⟨m1, h1, ha, he, hx, hs⟩ := reenter_ok rt m e mem hd
      obtain ⟨m2, h2, ha', he', hx', hs'⟩ := reenter_ok rt m' e mem' hws'
      rw [h1, h2]
      exact Both.ok (EndsAlike.raises (ha'.trans ha.symm) (by rw [he, he', henv])
        (by rw [hx, hx', hextra]) hs hs')

/-! ## Blocks and C calls -/

/-- The same small block is built from machines that are alike. -/
theorem makeblock_alike (hb : StackBlind rt) (h : Alike m m') (hdom : m'.dom = m.dom)
    (wosize tag : Nat) :
    Both (EndsAlike m.pc m'.pc m.sp) (makeblockOf rt true wosize tag m)
      (makeblockOf rt true wosize tag m') := by
  refine (Both.same (camlAssert (1 ≤ wosize))).bind (fun _ _ _ => ?_)
  refine (Both.same (camlAssert (tag < 256))).bind (fun _ _ _ => ?_)
  refine (Both.same (camlAssert (wosize ≤ maxYoungWosize))).bind (fun _ _ _ => ?_)
  rw [h.mem, hdom]
  refine (gcLoop_alike hb _ h).bind ?_
  rintro _ _ (⟨hab, hpc, hpc', hsp, -, -⟩ | ⟨hbelow⟩)
  · next a b =>
      dsimp only
      rw [hab.mem, hab.sp]
      refine (Both.same (spTake a.sp (wosize - 1))).bind ?_
      rintro rest _ rfl
      rw [hab.accu]
      refine Both.ok (EndsAlike.goesOn hpc hpc' ?_)
      exact ⟨rfl, hab.env, by rw [← hab.sp], hab.extraArgs, by rw [← hab.mem], hab.dom⟩
  · exact reenter_alike h.env h.extraArgs hbelow

theorem spTake_cons (v : Value) (sp : List Value) (n : Nat) :
    spTake (v :: sp) (n + 1) = (spTake sp n).map (v :: ·) := by
  unfold spTake
  simp only [List.length_cons, Nat.add_le_add_iff_right, List.take_succ_cons]
  split
  · rfl
  · rfl

theorem spDrop_cons (v : Value) (sp : List Value) {n k : Int} (hn : 0 ≤ n) (hk : k = n + 1) :
    spDrop (v :: sp) k = spDrop sp n := by
  obtain ⟨j, rfl⟩ := Int.eq_ofNat_of_zero_le hn
  subst hk
  have hj : ((j : Int) + 1).toNat = j + 1 := rfl
  unfold spDrop
  rw [hj, Int.toNat_natCast, List.length_cons, List.drop_succ_cons]
  by_cases h : j ≤ sp.length
  · rw [if_pos ⟨by omega, by omega⟩, if_pos ⟨by omega, h⟩]
  · rw [if_neg (by omega), if_neg (by omega)]

/-- What a call does once the primitive has answered. -/
def afterCall (rt : Runtime ω) (popped : Int) (m : Machine ω) : CResult ω → C (Ctl (Machine ω))
  | .raised e mem d => reenter rt m e mem d
  | .value v mem d => do
      let sp ← d.loadSp
      .ok (.next { m with
        accu := v, env := ← spAt sp 0, sp := ← spDrop sp (2 + popped),
        pc := m.pc + 4#64, mem := mem, dom := d })

/-- A C call: the registers it saves, the primitive, and what follows. -/
theorem cCall_eq (args : List Value → C (List Value)) (popped : Int) (m : Machine ω) :
    cCall rt args popped m
      = (m.dom.saveSp (m.env :: ofCode (m.pc + 4#64) :: m.sp) >>= fun d =>
          args (m.env :: ofCode (m.pc + 4#64) :: m.sp) >>= fun as =>
            rt.primitive m.operand as m.mem d >>= afterCall rt popped
              { m with sp := m.env :: ofCode (m.pc + 4#64) :: m.sp, dom := d }) := by
  show ((m.dom.saveSp (m.env :: ofCode (m.pc + 4#64) :: m.sp) >>= _) >>= _) = _
  cases m.dom.saveSp (m.env :: ofCode (m.pc + 4#64) :: m.sp) with
  | error e => rfl
  | ok d =>
      show (args (m.env :: ofCode (m.pc + 4#64) :: m.sp) >>= _) = _
      cases args (m.env :: ofCode (m.pc + 4#64) :: m.sp) with
      | error e => rfl
      | ok as =>
          show (rt.primitive m.operand as m.mem d >>= _) = (rt.primitive m.operand as m.mem d >>= _)
          cases rt.primitive m.operand as m.mem d with
          | error e => rfl
          | ok r =>
              cases r with
              | value v mem d' => rfl
              | raised e mem d' => rfl

/-- `C_CALLk` and `C_CALLN k` pass the primitive the same arguments and pop the
    same words; `C_CALLN` has pushed `accu` before. -/
theorem cCall_alike (hb : StackBlind rt) {k : Nat} {q : CodePtr}
    (hk : (m.mem.code q).toInt = ((k + 1 : Nat) : Int))
    (hprim : m.mem.code (q + 4#64) = m.mem.code m.pc) :
    Both (EndsAlike (m.pc + 4#64) (q + 4#64 + 4#64) m.sp) (cCallN rt (k + 1) m)
      (cCalln rt (moved q m)) := by
  unfold cCallN cCalln
  rw [cCall_eq, cCall_eq]
  refine ((alike_moved q m).saveSp _ _).bind ?_
  rintro d d' ⟨rfl, rfl⟩
  have hargs : (if 0 ≤ (m.mem.code q).toInt then spTake (m.accu :: m.sp) (m.mem.code q).toInt.toNat
      else .error .undefined) = (spTake m.sp k).map (m.accu :: ·) := by
    rw [hk, if_pos (by omega)]
    exact spTake_cons m.accu m.sp k
  show Both _ ((spTake m.sp k >>= _) >>= _)
    ((if 0 ≤ (m.mem.code q).toInt then spTake (m.accu :: m.sp) (m.mem.code q).toInt.toNat
      else .error .undefined) >>= _)
  rw [hargs]
  cases spTake m.sp k with
  | error e => exact Both.error e
  | ok as =>
      show Both _ (rt.primitive m.operand (m.accu :: as) m.mem (withWords _ m.dom) >>= _)
        (rt.primitive (m.mem.code (q + 4#64)) (m.accu :: as) m.mem (withWords _ m.dom) >>= _)
      rw [hprim, hb.primitive, hb.primitive]
      show Both _ (Except.map _ (rt.primitive (m.mem.code m.pc) _ _ _) >>= _) _
      cases rt.primitive (m.mem.code m.pc) (m.accu :: as) m.mem m.dom with
      | error e => exact Both.error e
      | ok r =>
          cases r with
          | raised e mem d =>
              exact reenter_alike rfl rfl
                (sameBelow_withWords [m.env, ofCode (m.pc + 4#64)]
                  [m.env, ofCode (q + 4#64 + 4#64), m.accu] m.sp d)
          | value v mem d =>
              show Both _ ((withWords _ d).loadSp >>= _) ((withWords _ d).loadSp >>= _)
              rw [loadSp_withWords, loadSp_withWords]
              cases d.stack d.currentStack with
              | error e => exact Both.error e
              | ok i =>
                  show Both _
                    (spDrop (m.env :: ofCode _ :: m.sp) (2 + (((k + 1 : Nat) : Int) - 1)) >>= _)
                    (spDrop (m.env :: ofCode _ :: m.accu :: m.sp) (2 + (m.mem.code q).toInt) >>= _)
                  rw [hk, spDrop_cons (n := k + 1) _ _ (by omega) (by omega),
                    spDrop_cons (n := k) _ _ (by omega) (by omega),
                    spDrop_cons (n := k + 2) _ _ (by omega) (by omega),
                    spDrop_cons (n := k + 1) _ _ (by omega) (by omega),
                    spDrop_cons (n := k) _ _ (by omega) (by omega)]
                  refine (Both.same (spDrop m.sp k)).bind ?_
                  rintro sp _ rfl
                  refine Both.ok (EndsAlike.goesOn rfl rfl ⟨rfl, rfl, rfl, rfl, rfl, ?_⟩)
                  show withWords [] (withWords _ d) = withWords [] (withWords _ d)
                  rw [withWords_withWords, withWords_withWords]

/-! ## Comparisons -/

/-- The comparison a branch has built in. -/
def comparing : List (Opcode × Opcode) :=
  [(.BEQ, .EQ), (.BNEQ, .NEQ), (.BLTINT, .LTINT), (.BLEINT, .LEINT), (.BGTINT, .GTINT),
    (.BGEINT, .GEINT), (.BULTINT, .ULTINT), (.BUGEINT, .UGEINT)]

/-- A test gives the same answer on immediates and on the integers they are. -/
def TagBlind (tst : BitVec 64 → BitVec 64 → Bool) : Prop :=
  ∀ x n : Long, tst (tagged x) (tagged n) = tst (x.signExtend 64) (n.signExtend 64)

theorem tagBlind_slt : TagBlind BitVec.slt := by
  intro x n
  rw [BitVec.slt, BitVec.slt, toInt_tagged, toInt_tagged, BitVec.toInt_signExtend_of_le (by decide),
    BitVec.toInt_signExtend_of_le (by decide)]
  refine decide_eq_decide.mpr ?_
  omega

theorem tagBlind_sle : TagBlind BitVec.sle := by
  intro x n
  rw [BitVec.sle, BitVec.sle, toInt_tagged, toInt_tagged, BitVec.toInt_signExtend_of_le (by decide),
    BitVec.toInt_signExtend_of_le (by decide)]
  refine decide_eq_decide.mpr ?_
  omega

theorem toNat_signExtend (x : Long) :
    (x.signExtend 64).toNat = if 2 ^ 62 ≤ x.toNat then x.toNat + 2 ^ 63 else x.toNat := by
  have hx := x.isLt
  rw [BitVec.toNat_signExtend, BitVec.toNat_setWidth, Nat.mod_eq_of_lt (by omega),
    BitVec.msb_eq_decide]
  by_cases h : 2 ^ 62 ≤ x.toNat
  · rw [if_pos h, if_pos (decide_eq_true h)]
    omega
  · rw [if_neg h, if_neg (by simpa using h)]
    rfl

theorem tagBlind_ult : TagBlind BitVec.ult := by
  intro x n
  have hx := x.isLt
  have hn := n.isLt
  rw [BitVec.ult, BitVec.ult, toNat_tagged, toNat_tagged, toNat_signExtend, toNat_signExtend]
  refine decide_eq_decide.mpr ?_
  split <;> split <;> omega

theorem tagBlind_ule : TagBlind BitVec.ule := by
  intro x n
  have hx := x.isLt
  have hn := n.isLt
  rw [BitVec.ule, BitVec.ule, toNat_tagged, toNat_tagged, toNat_signExtend, toNat_signExtend]
  refine decide_eq_decide.mpr ?_
  split <;> split <;> omega

theorem tagBlind_eq : TagBlind (fun a b => a == b) := by
  intro x n
  show decide (tagged x = tagged n) = decide (x.signExtend 64 = n.signExtend 64)
  refine decide_eq_decide.mpr ⟨fun h => ?_, fun h => ?_⟩
  · rw [← untagged_tagged x, h, untagged_tagged]
  · have hint := congrArg BitVec.toInt h
    rw [BitVec.toInt_signExtend_of_le (by decide), BitVec.toInt_signExtend_of_le (by decide)] at hint
    rw [BitVec.eq_of_toInt_eq hint]

theorem TagBlind.swap {tst : BitVec 64 → BitVec 64 → Bool} (h : TagBlind tst) :
    TagBlind (fun a b => tst b a) := fun x n => h n x


theorem longVal64_tagged (x : Long) : longVal64 (tagged x) = x.signExtend 64 := by
  apply BitVec.eq_of_toInt_eq
  unfold longVal64
  rw [BitVec.toInt_sshiftRight, toInt_tagged, BitVec.toInt_signExtend_of_le (by decide),
    Int.shiftRight_eq_div_pow]
  omega

/-- The operand of a branch, widened, is the integer `CONSTINT` loads. -/
theorem signExtend_operand (k : OpcodeWord) :
    k.signExtend 64 = (BitVec.ofInt 63 k.toInt).signExtend 64 := by
  apply BitVec.eq_of_toInt_eq
  have hlt := BitVec.toInt_lt (x := k)
  have hle := BitVec.le_toInt (x := k)
  rw [BitVec.toInt_signExtend_of_le (by decide), BitVec.toInt_signExtend_of_le (by decide),
    BitVec.toInt_ofInt, Int.bmod_eq_of_le (by omega) (by omega)]

/-- A comparison compares the two immediates with `tst` and pops one. -/
def Compares (tst : BitVec 64 → BitVec 64 → Bool) (f : Core → C Core) : Prop :=
  ∀ c x n rest, c.accu = valLong x → c.sp = valLong n :: rest →
    f c = .ok { c with accu := valBool (tst (tagged x) (tagged n)), sp := rest }

theorem compares_comparison (tst : BitVec 64 → BitVec 64 → Bool) :
    Compares tst (comparison tst) := by
  intro c x n rest hx hn
  unfold comparison
  rw [hx, hn]
  rfl

/-- `EQ` and `NEQ` compare two words. -/
theorem compares_equality (negate : Bool) :
    Compares (fun a b => (a == b) != negate) (equality negate) := by
  intro c x n rest hx hn
  have hsame : sameWord (valLong x) (valLong n) = .ok (tagged x == tagged n) := by
    unfold sameWord
    rw [if_neg (by simp [valLong])]
    show Except.ok (decide (Value.word (tagged x) = Value.word (tagged n)))
      = Except.ok (decide (tagged x = tagged n))
    rw [decide_eq_decide.mpr ⟨Value.word.inj, congrArg Value.word⟩]
  have hat : spAt (valLong n :: rest) 0 = .ok (valLong n) := rfl
  unfold equality
  rw [hx, hn, hat]
  simp only [bind, Except.bind]
  rw [hsame]
  rfl

/-- A comparison does not look at `pc`. -/
theorem pcBlind_comparison (tst : BitVec 64 → BitVec 64 → Bool) : PcBlind (comparison tst) := by
  intro p c
  unfold comparison
  show (wordOf c.accu >>= _) = _
  cases wordOf c.accu with
  | error e => rfl
  | ok a =>
      show (spAt c.sp 0 >>= _) = Except.map _ (spAt c.sp 0 >>= _)
      cases spAt c.sp 0 with
      | error e => rfl
      | ok v =>
          show (wordOf v >>= _) = Except.map _ (wordOf v >>= _)
          cases wordOf v with
          | error e => rfl
          | ok b =>
              show (spDrop c.sp 1 >>= _) = Except.map _ (spDrop c.sp 1 >>= _)
              cases spDrop c.sp 1 with
              | error e => rfl
              | ok sp => rfl

/-- Nor do `EQ` and `NEQ`. -/
theorem pcBlind_equality (negate : Bool) : PcBlind (equality negate) := by
  intro p c
  unfold equality
  show (spAt c.sp 0 >>= _) = _
  cases spAt c.sp 0 with
  | error e => rfl
  | ok v =>
      show (sameWord c.accu v >>= _) = Except.map _ (sameWord c.accu v >>= _)
      cases sameWord c.accu v with
      | error e => rfl
      | ok b =>
          show (spDrop c.sp 1 >>= _) = Except.map _ (spDrop c.sp 1 >>= _)
          cases spDrop c.sp 1 with
          | error e => rfl
          | ok sp => rfl

/-- What a comparing branch and its comparison share. -/
structure Compared (op cmp : Opcode) (tst : BitVec 64 → BitVec 64 → Bool) : Prop where
  tagBlind : TagBlind tst
  branch : HasBody op (branchComparison tst)
  compares : ∃ f, Does ⟨cmp, []⟩ f ∧ Compares tst f

/-- Each fused branch has a test, and the comparison it stands for has the same. -/
theorem compared {op cmp : Opcode} (h : (op, cmp) ∈ comparing) :
    ∃ tst, Compared op cmp tst := by
  have order : ∀ tst, TagBlind tst → HasBody op (branchComparison tst) →
      HasBody cmp (comparison tst) → ∃ tst, Compared op cmp tst := by
    intro tst htag hop hcmp
    have hdoes : Does ⟨cmp, []⟩ (comparison tst) :=
      ⟨pcBlind_comparison tst, _, hcmp, (pcBlind_comparison tst).reads⟩
    exact ⟨tst, htag, hop, _, hdoes, compares_comparison tst⟩
  have equal : ∀ negate, HasBody op (branchComparison (fun a b => (a == b) != negate)) →
      HasBody cmp (equality negate) → ∃ tst, Compared op cmp tst := by
    intro negate hop hcmp
    have hdoes : Does ⟨cmp, []⟩ (equality negate) :=
      ⟨pcBlind_equality negate, _, hcmp, (pcBlind_equality negate).reads⟩
    exact ⟨_, fun x n => congrArg (· != negate) (tagBlind_eq x n), hop, _, hdoes,
      compares_equality negate⟩
  simp only [comparing, List.mem_cons, Prod.mk.injEq, List.not_mem_nil, or_false] at h
  rcases h with ⟨rfl, rfl⟩ | ⟨rfl, rfl⟩ | ⟨rfl, rfl⟩ | ⟨rfl, rfl⟩ | ⟨rfl, rfl⟩ | ⟨rfl, rfl⟩ |
    ⟨rfl, rfl⟩ | ⟨rfl, rfl⟩
  · refine equal false (fun rt act m => ?_) (fun _ _ _ => rfl)
    simp only [Bool.bne_false]
    rfl
  · refine equal true (fun rt act m => ?_) (fun _ _ _ => rfl)
    simp only [Bool.bne_true]
    rfl
  · exact order _ tagBlind_slt (fun _ _ _ => rfl) (fun _ _ _ => rfl)
  · exact order _ tagBlind_sle (fun _ _ _ => rfl) (fun _ _ _ => rfl)
  · exact order _ tagBlind_slt.swap (fun _ _ _ => rfl) (fun _ _ _ => rfl)
  · exact order _ tagBlind_sle.swap (fun _ _ _ => rfl) (fun _ _ _ => rfl)
  · exact order _ tagBlind_ult (fun _ _ _ => rfl) (fun _ _ _ => rfl)
  · exact order _ tagBlind_ule.swap (fun _ _ _ => rfl) (fun _ _ _ => rfl)

/-- Where a branch at the offset word `ofs` goes on. -/
def branchTo (pc : CodePtr) (ofs : OpcodeWord) (taken : Bool) : CodePtr :=
  if taken then pc + BitVec.ofInt 64 (4 * ofs.toInt) else pc + 4#64

theorem branchWhen_eq (taken : Bool) (c : Core) :
    branchWhen taken c = .ok (withPc (branchTo c.pc c.operand taken) c) := by
  cases taken with
  | true => rfl
  | false => rfl

theorem branchif_valBool {c : Core} {taken : Bool} (h : c.accu = valBool taken) :
    branchif c = .ok (withPc (branchTo c.pc c.operand taken) c) := by
  rw [← branchWhen_eq]
  unfold branchif
  rw [h]
  cases taken with
  | true => rfl
  | false => rfl

/-- A comparing branch and the sequence it replaces take the same branch. -/
structure BranchesAlike (rt : Runtime ω) (act : Activation) (m : Machine ω)
    (p q : CodePtr) (ofs ofs' : OpcodeWord) (taken : Bool) : Prop where
  fused : machineStep rt act (.next (moved p m))
    = .ok (.next (moved (branchTo (p + 8#64) ofs taken) m))
  sequence : steps rt act 4 (.next (moved q m))
    = .ok (.next { moved (branchTo (q + 20#64) ofs' taken) m with accu := valBool taken })

/-- One instruction of a longer code. -/
theorem Does.follow {i : Instr} {f : Core → C Core} (hd : Does i f)
    (h : Holds m.mem.code m.pc (wordsOf [i])) {c : Core} (hc : f m.toCore = .ok c) (n : Nat) :
    steps rt act (n + 1) (.next m)
      = steps rt act n (resume m (behind m.pc (wordsOf [i])) c) := by
  show machineStep rt act (.next m) >>= _ = _
  rw [hd.step rt act h, hc]
  rfl

theorem does_push : Does ⟨.PUSH, []⟩ push :=
  ⟨fun _ _ => rfl, _, fun _ _ _ => rfl, PcBlind.reads (fun _ _ => rfl)⟩

theorem does_constint (k : OpcodeWord) : Does ⟨.CONSTINT, [k]⟩ (const k.toInt) :=
  ⟨pcBlind_const _, _, fun _ _ _ => rfl, reads_operand pcBlind_const k⟩

/-- `BRANCHIF` on a boolean. -/
theorem branchif_step (rt : Runtime ω) (act : Activation) (ofs : OpcodeWord) {taken : Bool}
    (haccu : m.accu = valBool taken)
    (h : Holds m.mem.code m.pc (wordsOf [⟨.BRANCHIF, [ofs]⟩])) :
    machineStep rt act (.next m) = .ok (.next (moved (branchTo (m.pc + 4#64) ofs taken) m)) := by
  obtain ⟨hstep, hofs, -⟩ := step_instr rt act h
  have hgo : branchif (withPc (m.pc + 4#64) m.toCore)
      = .ok (withPc (branchTo (m.pc + 4#64) (m.mem.code (m.pc + 4#64)) taken) m.toCore) :=
    branchif_valBool haccu
  rw [hstep]
  show (branchif (withPc (m.pc + 4#64) m.toCore) >>= _) >>= _ = _
  rw [hgo, hofs]
  rfl

/-- A fused branch and its expansion test the same and go to the same places. -/
theorem branches_alike {op cmp : Opcode} (h : (op, cmp) ∈ comparing) {n : Long}
    (himm : m.accu = valLong n) {p q : CodePtr} {k ofs ofs' : OpcodeWord}
    (hp : Holds m.mem.code p (wordsOf [⟨op, [k, ofs]⟩]))
    (hq : Holds m.mem.code q (wordsOf [⟨.PUSH, []⟩, ⟨.CONSTINT, [k]⟩, ⟨cmp, []⟩,
      ⟨.BRANCHIF, [ofs']⟩])) :
    ∃ taken, BranchesAlike rt act m p q ofs ofs' taken := by
  obtain ⟨tst, htag, hbranch, f, hdoes, hcmp⟩ := compared h
  refine ⟨tst (k.signExtend 64) (n.signExtend 64), ?_, ?_⟩
  · obtain ⟨hstep, hk, hofs, -⟩ := step_instr rt act (m := moved p m) hp
    have hk' : m.mem.code (p + 4#64) = k := hk
    have hofs' : m.mem.code (p + 4#64 + 4#64) = ofs := hofs
    have hbody : branchComparison tst (withPc (p + 4#64) m.toCore)
        = .ok (withPc (branchTo (p + 4#64 + 4#64) ofs
            (tst (k.signExtend 64) (n.signExtend 64))) m.toCore) := by
      show (wordOf m.accu >>= fun a => branchWhen (tst ((m.mem.code (p + 4#64)).signExtend 64)
        (longVal64 a)) (withPc (p + 4#64 + 4#64) m.toCore)) = _
      rw [himm]
      show branchWhen (tst ((m.mem.code (p + 4#64)).signExtend 64) (longVal64 (tagged n))) _ = _
      rw [hk', longVal64_tagged, branchWhen_eq]
      show Except.ok (withPc (branchTo (p + 4#64 + 4#64) (m.mem.code (p + 4#64 + 4#64)) _) _) = _
      rw [hofs']
      rfl
    rw [hstep, hbranch rt act]
    show (branchComparison tst (withPc (p + 4#64) m.toCore) >>= _) >>= _ = _
    rw [hbody, BitVec.add_assoc]
    rfl
  · obtain ⟨h0, h1, h2, h3, h4, h5, -⟩ := hq
    -- the three instructions before the branch, one after the other
    have s1 : steps rt act 4 (.next (moved q m))
        = steps rt act 3 (.next { moved (q + 4#64) m with sp := m.accu :: m.sp }) :=
      does_push.follow (m := moved q m) ⟨h0, trivial⟩ rfl 3
    have s2 : steps rt act 3 (.next { moved (q + 4#64) m with sp := m.accu :: m.sp })
        = steps rt act 2 (.next { moved (q + 4#64 + 4#64 + 4#64) m with
            sp := m.accu :: m.sp, accu := valInt k.toInt }) :=
      (does_constint k).follow (m := { moved (q + 4#64) m with sp := m.accu :: m.sp })
        ⟨h1, h2, trivial⟩ rfl 2
    have hf := hcmp { m.toCore with
        pc := q + 4#64 + 4#64 + 4#64, sp := m.accu :: m.sp, accu := valInt k.toInt }
      (BitVec.ofInt 63 k.toInt) n m.sp rfl (by rw [himm])
    have s3 : steps rt act 2 (.next { moved (q + 4#64 + 4#64 + 4#64) m with
          sp := m.accu :: m.sp, accu := valInt k.toInt })
        = steps rt act 1 (.next { moved (q + 4#64 + 4#64 + 4#64 + 4#64) m with
            accu := valBool (tst (tagged (BitVec.ofInt 63 k.toInt)) (tagged n)) }) :=
      hdoes.follow (m := { moved (q + 4#64 + 4#64 + 4#64) m with
          sp := m.accu :: m.sp, accu := valInt k.toInt }) ⟨h3, trivial⟩ hf 1
    have s4 := branchif_step rt act ofs'
      (m := { moved (q + 4#64 + 4#64 + 4#64 + 4#64) m with
        accu := valBool (tst (tagged (BitVec.ofInt 63 k.toInt)) (tagged n)) }) rfl
      ⟨h4, h5, trivial⟩
    have hq20 : q + 4#64 + 4#64 + 4#64 + 4#64 + 4#64 = q + 20#64 := by
      simp only [BitVec.add_assoc]
      rfl
    rw [s1, s2, s3, signExtend_operand k, ← htag, ← hq20]
    show machineStep rt act _ >>= Except.ok = _
    rw [s4]
    rfl

/-! ## All of them -/

/-- An instruction and what it stands for, from any machine and at any two
    addresses of its code. -/
def Agrees (rt : Runtime ω) (act : Activation) (i : Instr) (is : List Instr) : Prop :=
  ∀ (m : Machine ω) p q, Holds m.mem.code p (wordsOf [i]) → Holds m.mem.code q (wordsOf is) →
    Both (EndsAlike (behind p (wordsOf [i])) (behind q (wordsOf is)) m.sp)
      (machineStep rt act (.next (moved p m))) (steps rt act is.length (.next (moved q m)))

theorem Does.at {i : Instr} {f : Core → C Core} (hd : Does i f) {p : CodePtr}
    (h : Holds m.mem.code p (wordsOf [i])) :
    machineStep rt act (.next (moved p m))
      = (f m.toCore).map (resume m (behind p (wordsOf [i]))) := by
  refine (hd.step rt act (m := moved p m) h).trans ?_
  show Except.map _ (f (withPc p m.toCore)) = _
  rw [hd.blind]
  cases f m.toCore with
  | error e => rfl
  | ok c => rfl

theorem endsAlike_resume (p q : CodePtr) (m : Machine ω) (c : Core) :
    EndsAlike p q m.sp (resume m p c) (resume m q c) :=
  EndsAlike.goesOn rfl rfl ⟨rfl, rfl, rfl, rfl, rfl, rfl⟩

theorem steps_one (c : Ctl (Machine ω)) : steps rt act 1 c = machineStep rt act c := by
  show machineStep rt act c >>= Except.ok = _
  cases machineStep rt act c with
  | error e => rfl
  | ok c' => rfl

/-- One instruction for another one that does the same. -/
theorem Does.agrees {i j : Instr} {f : Core → C Core} (hi : Does i f) (hj : Does j f) :
    Agrees rt act i [j] := by
  intro m p q hp hq
  show Both _ _ (steps rt act 1 _)
  rw [steps_one, hi.at hp, hj.at hq]
  exact Both.map (endsAlike_resume _ _ m) _

/-- One instruction for two that do the same one after the other. -/
theorem Does.agrees_pair {i j k : Instr} {f g : Core → C Core}
    (hi : Does i (fun c => f c >>= g)) (hj : Does j f) (hk : Does k g)
    (hcode : ∀ {c c'}, f c = .ok c' → c'.mem.code = c.mem.code) : Agrees rt act i [j, k] := by
  intro m p q hp hq
  show Both _ _ (steps rt act 2 _)
  have hpair := hj.pair rt act hk hcode (m := moved q m) hq
  have hblind : (f (withPc q m.toCore) >>= g) = (f m.toCore >>= g).map (withPc q) :=
    hj.blind.bind hk.blind q m.toCore
  have hpair' : steps rt act 2 (.next (moved q m))
      = (f m.toCore >>= g).map (resume m (behind q (wordsOf [j, k]))) := by
    refine hpair.trans ?_
    show Except.map _ (f (withPc q m.toCore) >>= g) = _
    rw [hblind]
    cases f m.toCore >>= g with
    | error e => rfl
    | ok c => rfl
  rw [hi.at hp, hpair']
  exact Both.map (endsAlike_resume _ _ m) _

/-- `MAKEBLOCK1` to `MAKEBLOCK3` against `MAKEBLOCK`. -/
theorem makeblock_agrees (hb : StackBlind rt) {op : Opcode} {n : Nat} {w : OpcodeWord}
    (hop : ∀ m, CamlUpstream.exec rt act op m = makeblockN rt n m) (hw : w.toInt = n)
    (hn : n ≤ maxYoungWosize) (tag : OpcodeWord) :
    Agrees rt act ⟨op, [tag]⟩ [⟨.MAKEBLOCK, [w, tag]⟩] := by
  intro m p q hp hq
  obtain ⟨hp', htag, -⟩ := step_instr rt act (m := moved p m) hp
  obtain ⟨hq', hsize, htag', -⟩ := step_instr rt act (m := moved q m) hq
  show Both _ _ (steps rt act 1 _)
  rw [steps_one, hp', hq', hop]
  have hgen : makeblock rt (moved (q + 4#64) m)
      = makeblockOf rt true n tag.toNat (moved (q + 4#64 + 4#64 + 4#64) m) := by
    have hs : m.mem.code (q + 4#64) = w := hsize
    have ht : m.mem.code (q + 4#64 + 4#64) = tag := htag'
    unfold makeblock
    have hsz : mlsize w = n := by
      rw [mlsize_of_nonneg (by omega), hw]
      rfl
    show makeblockOf rt (decide (mlsize (m.mem.code (q + 4#64)) ≤ maxYoungWosize))
      (mlsize (m.mem.code (q + 4#64))) (m.mem.code (q + 4#64 + 4#64)).toNat _ = _
    rw [hs, ht, hsz, decide_eq_true hn]
    rfl
  have hfix : makeblockN rt n (moved (p + 4#64) m)
      = makeblockOf rt true n tag.toNat (moved (p + 4#64 + 4#64) m) := by
    have ht : m.mem.code (p + 4#64) = tag := htag
    unfold makeblockN
    show makeblockOf rt true n (m.mem.code (p + 4#64)).toNat _ = _
    rw [ht]
    rfl
  show Both _ (makeblockN rt n (moved (p + 4#64) m)) (makeblock rt (moved (q + 4#64) m))
  rw [hgen, hfix]
  exact makeblock_alike hb (moved_alike (p + 4#64 + 4#64) (q + 4#64 + 4#64 + 4#64) m) rfl n
    tag.toNat

/-- `C_CALL1` to `C_CALL5` against `C_CALLN`. -/
theorem cCall_agrees (hb : StackBlind rt) {op : Opcode} {k : Nat} {w : OpcodeWord}
    (hop : ∀ m, CamlUpstream.exec rt act op m = cCallN rt (k + 1) m)
    (hw : w.toInt = ((k + 1 : Nat) : Int)) (prim : OpcodeWord) :
    Agrees rt act ⟨op, [prim]⟩ [⟨.C_CALLN, [w, prim]⟩] := by
  intro m p q hp hq
  obtain ⟨hp', hprim, -⟩ := step_instr rt act (m := moved p m) hp
  obtain ⟨hq', hargs, hprim', -⟩ := step_instr rt act (m := moved q m) hq
  have hw' : m.mem.code (q + 4#64) = w := hargs
  have h1 : m.mem.code (p + 4#64) = prim := hprim
  have h2 : m.mem.code (q + 4#64 + 4#64) = prim := hprim'
  show Both _ _ (steps rt act 1 _)
  rw [steps_one, hp', hq', hop]
  exact cCall_alike hb (m := moved (p + 4#64) m) (q := q + 4#64)
    (show (m.mem.code (q + 4#64)).toInt = _ by rw [hw', hw])
    (show m.mem.code (q + 4#64 + 4#64) = m.mem.code (p + 4#64) by rw [h1, h2])

/-- Every line of the table, by the family it belongs to. -/
theorem StandsFor.agrees (hb : StackBlind rt) {i : Instr} {is : List Instr}
    (h : StandsFor i is) : Agrees rt act i is := by
  cases h with
  | operand hop =>
      obtain ⟨f, hfix, hgen⟩ := does_fixed hop
      exact hfix.agrees hgen
  | push hop =>
      obtain ⟨f, hplain, hpush⟩ := does_pushing hop
      refine Does.agrees_pair hpush does_push hplain ?_
      intro c c' hc
      rw [← Except.ok.inj hc]
  | getglobalfield g n =>
      have hfused : Does ⟨.GETGLOBALFIELD, [g, n]⟩ (globalField g.toInt n.toInt) :=
        ⟨(pcBlind_global _).bind (pcBlind_getfield _), _, fun _ _ _ => rfl,
          getglobalfield_reads g n⟩
      have hglobal : Does ⟨.GETGLOBAL, [g]⟩ (global g.toInt) :=
        ⟨pcBlind_global _, _, fun _ _ _ => rfl, reads_operand pcBlind_global g⟩
      have hfield : Does ⟨.GETFIELD, [n]⟩ (getfield n.toInt) :=
        ⟨pcBlind_getfield _, _, fun _ _ _ => rfl, reads_operand pcBlind_getfield n⟩
      refine Does.agrees_pair hfused hglobal hfield ?_
      intro c c' hc
      obtain ⟨v, -, hv⟩ := bind_eq_ok.mp hc
      rw [← Except.ok.inj hv]
  | makeblock tag hop =>
      simp only [List.mem_cons, Prod.mk.injEq, List.not_mem_nil, or_false] at hop
      rcases hop with ⟨rfl, rfl⟩ | ⟨rfl, rfl⟩ | ⟨rfl, rfl⟩
      · exact makeblock_agrees hb (fun _ => rfl) rfl (by decide) tag
      · exact makeblock_agrees hb (fun _ => rfl) rfl (by decide) tag
      · exact makeblock_agrees hb (fun _ => rfl) rfl (by decide) tag
  | cCall prim hop =>
      simp only [List.mem_cons, Prod.mk.injEq, List.not_mem_nil, or_false] at hop
      rcases hop with ⟨rfl, rfl⟩ | ⟨rfl, rfl⟩ | ⟨rfl, rfl⟩ | ⟨rfl, rfl⟩ | ⟨rfl, rfl⟩
      · exact cCall_agrees hb (k := 0) (fun _ => rfl) rfl prim
      · exact cCall_agrees hb (k := 1) (fun _ => rfl) rfl prim
      · exact cCall_agrees hb (k := 2) (fun _ => rfl) rfl prim
      · exact cCall_agrees hb (k := 3) (fun _ => rfl) rfl prim
      · exact cCall_agrees hb (k := 4) (fun _ => rfl) rfl prim

/-- Every superinstruction does what it stands for. -/
structure SuperinstructionsAgree (rt : Runtime ω) (act : Activation) : Prop where
  sequences : ∀ {i is}, StandsFor i is → Agrees rt act i is
  /-- a comparing branch on an immediate; the sequence leaves the truth value in `accu` -/
  branches : ∀ {op cmp}, (op, cmp) ∈ comparing → ∀ (m : Machine ω) n p q k ofs ofs',
    m.accu = valLong n → Holds m.mem.code p (wordsOf [⟨op, [k, ofs]⟩]) →
    Holds m.mem.code q (wordsOf [⟨.PUSH, []⟩, ⟨.CONSTINT, [k]⟩, ⟨cmp, []⟩,
      ⟨.BRANCHIF, [ofs']⟩]) →
    ∃ taken, BranchesAlike rt act m p q ofs ofs' taken

/-- **SUPERINSTRUCTIONS AGREE WITH THEIR SEQUENCES**: from any registers, stack
    and memory the two codes leave the same ones, each with `pc` at its end. -/
theorem superinstructions_agree (act : Activation) (hb : StackBlind rt) :
    SuperinstructionsAgree rt act := by
  constructor
  · intro i is h
    exact h.agrees hb
  · intro op cmp h m n p q k ofs ofs' himm hp hq
    exact branches_alike h himm hp hq

theorem stackBlind_quiet : StackBlind quiet := by
  constructor
  · intro mem d ws
    rfl
  · intro prim args mem d ws
    rfl

/-- With C code that never interferes nothing is assumed. -/
theorem superinstructions_agree_quiet : SuperinstructionsAgree quiet soleActivation :=
  superinstructions_agree soleActivation stackBlind_quiet

end CamlFusion
