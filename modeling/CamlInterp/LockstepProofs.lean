import CamlInterp.AgreementProofs
import CamlInterp.BalanceProofs
import CamlInterp.CallbackProofs
import Mathlib.Data.List.Forall2

/-! # The two generations in lockstep

    `interp-ali.c` and `interp.c` run the same program on the same words.  As long
    as the program leaves the links of its trap frames to the trap instructions,
    both go through the same states and stop together.  How far down the stack an
    instruction reaches is a table, so that a run can be looked through for an
    instruction that reaches a link. -/

namespace CamlLockstep

open CellStore CamlValue CamlOpcode CamlMachine CamlInstr CamlControl CamlStep CamlEffect
  CamlLocal CamlTower CamlGeneration CamlAgreement Related Runs
open CamlAli (AliMachine AliRuntime AliActivation AliResult CamlState)
open CamlBalance (isEffect)

variable {ω : Type} {out : Outside ω} {base room : Nat} {act : Activation} {act' : AliActivation}
  {d : Core} {s s' : List Value} {fs : List Nat} {dom : Domain ω} {state : CamlState ω}
  {op : Opcode}

/-! ## How far an instruction reaches -/

/-- How many words from the top of the stack on an instruction reads or takes off,
    the single word of `ACC` and `ASSIGN` apart. -/
def reach (op : Opcode) (c : Core) : Nat :=
  match op with
  | .POP => c.operand.toInt.toNat
  | .APPLY1 => 1
  | .APPLY2 => 2
  | .APPLY3 => 3
  | .APPTERM => c.advance.operand.toInt.toNat
  | .APPTERM1 => max 1 c.operand.toInt.toNat
  | .APPTERM2 => max 2 c.operand.toInt.toNat
  | .APPTERM3 => max 3 c.operand.toInt.toNat
  | .RETURN => reachReturn c
  | .RESTART => 3 - (wosizeVal c.mem.heap c.env).toOption.getD 3
  | .GRAB => reachGrab c
  | .CLOSURE | .MAKEBLOCK | .MAKEFLOATBLOCK | .C_CALLN => c.operand.toInt.toNat - 1
  | .CLOSUREREC => c.advance.operand.toInt.toNat - 1
  | .MAKEBLOCK2 | .C_CALL2 => 1
  | .MAKEBLOCK3 | .C_CALL3 => 2
  | .C_CALL4 => 3
  | .C_CALL5 => 4
  | .SETFIELD0 | .SETFIELD1 | .SETFIELD2 | .SETFIELD3 | .SETFIELD | .SETFLOATFIELD
  | .GETVECTITEM | .GETBYTESCHAR | .GETSTRINGCHAR | .ADDINT | .SUBINT | .MULINT | .DIVINT
  | .MODINT | .ANDINT | .ORINT | .XORINT | .LSLINT | .LSRINT | .ASRINT | .EQ | .NEQ | .LTINT
  | .LEINT | .GTINT | .GEINT | .ULTINT | .UGEINT | .GETMETHOD | .GETDYNMET => 1
  | .SETVECTITEM | .SETBYTESCHAR => 2
  | _ => 0

/-- The word `ACC` reads or `ASSIGN` writes, counted from the top; `PUSHACC` reads
    after a push. -/
def index (op : Opcode) (c : Core) : Option Int :=
  match op with
  | .ACC0 => some 0
  | .ACC1 => some 1
  | .ACC2 => some 2
  | .ACC3 => some 3
  | .ACC4 => some 4
  | .ACC5 => some 5
  | .ACC6 => some 6
  | .ACC7 => some 7
  | .PUSHACC1 => some 0
  | .PUSHACC2 => some 1
  | .PUSHACC3 => some 2
  | .PUSHACC4 => some 3
  | .PUSHACC5 => some 4
  | .PUSHACC6 => some 5
  | .PUSHACC7 => some 6
  | .ACC | .ASSIGN => some c.operand.toInt
  | .PUSHACC => some (c.operand.toInt - 1)
  | _ => none

/-- The frames the links of `interp.c` lead through, by their heights. -/
def framesOf (m : Machine ω) : List Nat := offsetFrames m.sp m.sp.length m.dom.trapSpOff

/-- Where the link of the frame at height `h` is, counted from the top. -/
def linkIndex (m : Machine ω) (h : Nat) : Int := m.sp.length - h + 1

/-- The instruction touches no link but through the trap instructions. -/
structure Spares (op : Opcode) (m : Machine ω) : Prop where
  short : ∀ h ∈ framesOf m, (reach op m.toCore : Int) ≤ linkIndex m h
  misses : ∀ i ∈ index op m.toCore, ∀ h ∈ framesOf m, i ≠ linkIndex m h
  /-- `POPTRAP` finds the innermost frame on top -/
  poptrap : op = .POPTRAP → (framesOf m).head? = some m.sp.length

/-- The run is about to make room on the stack. -/
def checking : Ctl (Machine ω) → Bool
  | .checkStacks _ => true
  | _ => false

/-- A state from which the next instruction is one that both generations have, with
    `room` on the stack. -/
structure Permitted (room : Nat) (c : Ctl (Machine ω)) : Prop where
  shared : ∀ op ∈ executing c, isEffect op = false
  room : checking c = true → c.state.sp.length ≤ room

/-- Moreover the instruction uses links as links, and pushes trap frames above the
    `base` words of the caller, where a stack can lie. -/
structure Orderly (base room : Nat) (c : Ctl (Machine ω)) : Prop extends Permitted room c where
  spares : ∀ op ∈ executing c, Spares op (fetched c)
  above : executing c = some .PUSHTRAP → base < c.state.sp.length + 4
  fits : executing c = some .PUSHTRAP → 8 * (c.state.sp.length + 4) < 2 ^ 64

instance (op : Opcode) (m : Machine ω) : Decidable (Spares op m) :=
  decidable_of_iff ((∀ h ∈ framesOf m, (reach op m.toCore : Int) ≤ linkIndex m h) ∧
      (∀ i ∈ index op m.toCore, ∀ h ∈ framesOf m, i ≠ linkIndex m h) ∧
      (op = .POPTRAP → (framesOf m).head? = some m.sp.length))
    ⟨fun h => ⟨h.1, h.2.1, h.2.2⟩, fun h => ⟨h.short, h.misses, h.poptrap⟩⟩

instance (room : Nat) (c : Ctl (Machine ω)) : Decidable (Permitted room c) :=
  decidable_of_iff ((∀ op ∈ executing c, isEffect op = false) ∧
      (checking c = true → c.state.sp.length ≤ room))
    ⟨fun h => ⟨h.1, h.2⟩, fun h => ⟨h.shared, h.room⟩⟩

instance (base room : Nat) (c : Ctl (Machine ω)) : Decidable (Orderly base room c) :=
  decidable_of_iff (Permitted room c ∧
      (∀ op ∈ executing c, Spares op (fetched c)) ∧
      (executing c = some .PUSHTRAP → base < c.state.sp.length + 4) ∧
      (executing c = some .PUSHTRAP → 8 * (c.state.sp.length + 4) < 2 ^ 64))
    ⟨fun h => ⟨h.1, h.2.1, h.2.2.1, h.2.2.2⟩,
      fun h => ⟨h.toPermitted, h.spares, h.above, h.fits⟩⟩

/-! ## The frames are those of the tower -/

theorem framesOf_eq (ht : Tower base s s' dom.trapSpOff state.trapsp fs) :
    framesOf (⟨atop s d, dom⟩ : Machine ω) = fs := by
  refine ht.offsets d.sp ?_
  have := ht.frames_le
  show fs.length ≤ (d.sp ++ s).length
  rw [List.length_append]
  omega

/-- The table looks at registers alone. -/
theorem reach_atop (op : Opcode) (rest : List Value) (c : Core) :
    reach op (atop rest c) = reach op c := by
  cases op <;> rfl

theorem index_atop (op : Opcode) (rest : List Value) (c : Core) :
    index op (atop rest c) = index op c := by
  cases op <;> rfl

/-- An instruction that spares the trap frames looks no deeper than the topmost one. -/
theorem Spares.top (ht : Tower base s s' dom.trapSpOff state.trapsp fs)
    (h : Spares op (⟨atop s d, dom⟩ : Machine ω)) (hne : fs ≠ []) :
    reach op d ≤ d.sp.length := by
  cases fs with
  | nil => exact absurd rfl hne
  | cons x fs =>
      have hle := h.short x (by rw [framesOf_eq ht]; exact List.mem_cons_self)
      rw [reach_atop] at hle
      have hx := ht.head
      have hlen : linkIndex (⟨atop s d, dom⟩ : Machine ω) x
          = ((d.sp ++ s).length : Int) - x + 1 := rfl
      rw [hlen, List.length_append] at hle
      omega

theorem Spares.word (ht : Tower base s s' dom.trapSpOff state.trapsp fs)
    (h : Spares op (⟨atop s d, dom⟩ : Machine ω)) {i : Int} (hi : index op d = some i) :
    ∀ x ∈ fs, ((d.sp ++ s).length : Int) - i ≠ x - 1 := by
  intro x hx
  have hne := h.misses i (by rw [index_atop]; exact hi) x (by rw [framesOf_eq ht]; exact hx)
  have hlen : linkIndex (⟨atop s d, dom⟩ : Machine ω) x
      = ((d.sp ++ s).length : Int) - x + 1 := rfl
  rw [hlen] at hne
  omega

/-! ## One instruction -/

theorem pushacc_steps (ht : Tower base s s' dom.trapSpOff state.trapsp fs)
    (har : Around room dom state) {i : Int}
    (hi : ∀ h ∈ fs, ((d.sp ++ s).length : Int) - (i - 1) ≠ h - 1) :
    Steps base room (thenNext (pushThen (acc i)) ⟨atop s d, dom⟩)
      (CamlAli.next (pushThen (acc i)) ⟨atop s' d, state⟩) := by
  refine acc_steps (d := { d with sp := d.accu :: d.sp }) ht har (fun h hm => ?_)
  have := hi h hm
  show ((d.accu :: (d.sp ++ s)).length : Int) - i ≠ h - 1
  rw [List.length_cons]
  omega

/-- **ONE INSTRUCTION**: both generations do the same when it touches no link but
    through the trap instructions. -/
theorem exec_steps (ht : Tower base s s' dom.trapSpOff state.trapsp fs)
    (har : Around room dom state) (hb : base < 2 ^ 61) (heff : isEffect op = false)
    (hsp : Spares op (⟨atop s d, dom⟩ : Machine ω))
    (hpush : op = .PUSHTRAP →
      base < (d.sp ++ s).length + 4 ∧ 8 * ((d.sp ++ s).length + 4) < 2 ^ 64) :
    Steps base room (CamlUpstream.exec out.runtime act op ⟨atop s d, dom⟩)
      (CamlAli.exec (out.aliRuntime base) act' op ⟨atop s' d, state⟩) := by
  have hlocal : ∀ {f : Core → C Core}, Local f d →
      Steps base room (thenNext f ⟨atop s d, dom⟩) (CamlAli.next f ⟨atop s' d, state⟩) :=
    fun h => next_steps ht har (fun _ => h)
  have htop : fs ≠ [] → reach op d ≤ d.sp.length := hsp.top ht
  have hword : ∀ {i : Int}, index op d = some i →
      ∀ x ∈ fs, ((d.sp ++ s).length : Int) - i ≠ x - 1 := hsp.word ht
  cases op with
  -- one word is read or written, and it is not a link
  | ACC0 | ACC1 | ACC2 | ACC3 | ACC4 | ACC5 | ACC6 | ACC7 => exact acc_steps ht har (hword rfl)
  | ACC => exact acc_steps (d := d.advance) ht har (hword rfl)
  | PUSH | PUSHACC0 => exact hlocal (push_local d)
  | PUSHACC1 | PUSHACC2 | PUSHACC3 | PUSHACC4 | PUSHACC5 | PUSHACC6 | PUSHACC7 =>
      exact pushacc_steps ht har (hword rfl)
  | PUSHACC => exact pushacc_steps (d := d.advance) ht har (hword rfl)
  -- the stack is read from the top on, and the first link is below what is read
  | POP => exact next_steps ht har (fun hne => pop_local (htop hne))
  | ASSIGN => exact assign_steps ht har (hword rfl)
  -- the stack is left alone, or a word is pushed
  | ENVACC1 | ENVACC2 | ENVACC3 | ENVACC4 => exact hlocal (envacc_local _ d)
  | ENVACC => exact hlocal (envaccOperand_local d)
  | PUSHENVACC1 | PUSHENVACC2 | PUSHENVACC3 | PUSHENVACC4 =>
      exact hlocal (pushThen_local (envacc_local _ _))
  | PUSHENVACC => exact hlocal (pushThen_local (envaccOperand_local _))
  | PUSH_RETADDR => exact hlocal (pushRetaddr_local d)
  | APPLY => exact enter_steps ht har (fun _ => apply_local d)
  | APPLY1 | APPLY2 | APPLY3 => exact enter_steps ht har (fun hne => applyArgs_local (htop hne))
  | APPTERM => exact enter_steps ht har (fun hne => appterm_local (htop hne))
  | APPTERM1 | APPTERM2 | APPTERM3 =>
      exact enter_steps ht har (fun hne => apptermArgs_local
        (Nat.le_trans (Nat.le_max_left _ _) (htop hne))
        (Nat.le_trans (Nat.le_max_right _ _) (htop hne)))
  | RETURN => exact ret_steps ht har htop
  | RESTART =>
      refine next_steps ht har (fun hne => restart_local (fun {n} hn => ?_))
      have hreach : 3 - (wosizeVal d.mem.heap d.env).toOption.getD 3 ≤ d.sp.length := htop hne
      rw [hn] at hreach
      exact hreach
  | GRAB => exact grab_steps ht har htop
  | CLOSURE => exact closure_steps ht har htop
  | CLOSUREREC => exact closurerec_steps ht har htop
  | OFFSETCLOSUREM3 | OFFSETCLOSURE3 => exact hlocal (offsetclosure_local _ d)
  | OFFSETCLOSURE0 => exact hlocal (offsetclosure0_local d)
  | OFFSETCLOSURE => exact hlocal (offsetclosureOperand_local d)
  | PUSHOFFSETCLOSUREM3 | PUSHOFFSETCLOSURE3 =>
      exact hlocal (pushThen_local (offsetclosure_local _ _))
  | PUSHOFFSETCLOSURE0 => exact hlocal (pushThen_local (offsetclosure0_local _))
  | PUSHOFFSETCLOSURE => exact hlocal (pushThen_local (offsetclosureOperand_local _))
  | GETGLOBAL => exact hlocal (getglobal_local d)
  | PUSHGETGLOBAL => exact hlocal (pushThen_local (getglobal_local _))
  | GETGLOBALFIELD => exact hlocal (getglobalfield_local d)
  | PUSHGETGLOBALFIELD => exact hlocal (pushThen_local (getglobalfield_local _))
  | SETGLOBAL => exact hlocal (setglobal_local d)
  | ATOM0 => exact hlocal (atom_local 0 d)
  | ATOM => exact hlocal (atomOperand_local d)
  | PUSHATOM0 => exact hlocal (pushThen_local (atom_local 0 _))
  | PUSHATOM => exact hlocal (pushThen_local (atomOperand_local _))
  | MAKEBLOCK => exact makeblock_steps ht har htop
  | MAKEBLOCK1 | MAKEBLOCK2 | MAKEBLOCK3 => exact makeblockN_steps ht har htop
  | MAKEFLOATBLOCK => exact makefloatblock_steps ht har htop
  | GETFIELD0 | GETFIELD1 | GETFIELD2 | GETFIELD3 => exact hlocal (getfield_local _ d)
  | GETFIELD => exact hlocal (getfieldOperand_local d)
  | GETFLOATFIELD => exact getfloatfield_steps ht har
  | SETFIELD0 | SETFIELD1 | SETFIELD2 | SETFIELD3 =>
      exact next_steps ht har (fun hne => setfield_local _ (htop hne))
  | SETFIELD => exact next_steps ht har (fun hne => setfieldOperand_local (htop hne))
  | SETFLOATFIELD => exact next_steps ht har (fun hne => setfloatfield_local (htop hne))
  | VECTLENGTH => exact hlocal (vectlength_local d)
  | GETVECTITEM => exact next_steps ht har (fun hne => getvectitem_local (htop hne))
  | SETVECTITEM => exact next_steps ht har (fun hne => setvectitem_local (htop hne))
  | GETBYTESCHAR | GETSTRINGCHAR =>
      exact next_steps ht har (fun hne => getbyteschar_local (htop hne))
  | SETBYTESCHAR => exact next_steps ht har (fun hne => setbyteschar_local (htop hne))
  | BRANCH => exact hlocal (branchWhen_local true d)
  | BRANCHIF => exact hlocal (branchif_local d)
  | BRANCHIFNOT => exact hlocal (branchifnot_local d)
  | SWITCH => exact hlocal (switch_local d)
  | BOOLNOT => exact hlocal (boolnot_local d)
  -- the links are written and followed
  | PUSHTRAP => exact pushtrap_steps ht har (hpush rfl).1 (hpush rfl).2
  | POPTRAP =>
      refine poptrap_steps ht har hb ?_
      rw [← framesOf_eq (d := d) ht]
      exact hsp.poptrap rfl
  | RAISE => exact raise_steps false ht har
  | CHECK_SIGNALS => exact checkSignals_steps ⟨d, s, s', fs, rfl, rfl, ht, har⟩
  | C_CALL1 | C_CALL2 | C_CALL3 | C_CALL4 | C_CALL5 => exact cCallN_steps ht har htop
  | C_CALLN => exact cCalln_steps ht har htop
  | CONST0 | CONST1 | CONST2 | CONST3 => exact hlocal (const_local _ d)
  | CONSTINT => exact hlocal (constint_local d)
  | PUSHCONST0 | PUSHCONST1 | PUSHCONST2 | PUSHCONST3 =>
      exact hlocal (pushThen_local (const_local _ _))
  | PUSHCONSTINT => exact hlocal (pushThen_local (constint_local _))
  | NEGINT => exact hlocal (unop_local _ d)
  | ADDINT | SUBINT | MULINT | ANDINT | ORINT | XORINT | LSLINT | LSRINT | ASRINT =>
      exact next_steps ht har (fun hne => binop_local _ (htop hne))
  | DIVINT | MODINT => exact divide_steps ht har _ htop
  | EQ | NEQ => exact next_steps ht har (fun hne => equality_local _ (htop hne))
  | LTINT | LEINT | GTINT | GEINT | ULTINT | UGEINT =>
      exact next_steps ht har (fun hne => comparison_local _ (htop hne))
  | OFFSETINT => exact hlocal (offsetint_local d)
  | OFFSETREF => exact hlocal (offsetref_local d)
  | ISINT => exact hlocal (isint_local d)
  | GETMETHOD => exact next_steps ht har (fun hne => getmethod_local (htop hne))
  | BEQ | BNEQ | BLTINT | BLEINT | BGTINT | BGEINT | BULTINT | BUGEINT =>
      exact hlocal (branchComparison_local _ d)
  | GETPUBMET => exact hlocal (getpubmet_local d)
  | GETDYNMET => exact next_steps ht har (fun hne => getdynmet_local (htop hne))
  | STOP => exact stop_steps ht har
  | EVENT => exact event_steps ht har
  | BREAK => exact breakInstr_steps ht har
  | RERAISE => exact raise_steps true ht har
  | RAISE_NOTRACE => exact raiseNotraceInstr_steps ht har
  | PERFORM | RESUME | RESUMETERM | REPERFORMTERM => cases heff

/-! ## One step -/

/-- One instruction of both interpreters. -/
theorem execWord_steps {w : OpcodeWord} {m : Machine ω} {a : AliMachine ω}
    (h : Linked base room m a) (hb : base < 2 ^ 61)
    (heff : ∀ op, decode w = some op → isEffect op = false)
    (hsp : ∀ op, decode w = some op → Spares op m)
    (hpush : decode w = some .PUSHTRAP →
      base < m.sp.length + 4 ∧ 8 * (m.sp.length + 4) < 2 ^ 64) :
    Steps base room (CamlUpstream.execWord out.runtime act w m)
      (CamlAli.execWord (out.aliRuntime base) act' w a) := by
  obtain ⟨d, s, s', fs, hm, ha, ht, har⟩ := h
  obtain ⟨c, dom⟩ := m
  obtain ⟨c', state⟩ := a
  obtain rfl : c = atop s d := hm
  obtain rfl : c' = atop s' d := ha
  unfold CamlUpstream.execWord CamlAli.execWord
  cases hw : decode w with
  -- the default case of both switches
  | none => exact Alike.fault _ _
  | some op =>
      exact exec_steps ht har hb (heff op hw) (hsp op hw) (fun he => hpush (by rw [hw, he]))

/-- The fetch moves `pc` on both sides. -/
theorem linked_advance {m : Machine ω} {a : AliMachine ω} (h : Linked base room m a) :
    m.operand = a.operand ∧ Linked base room { m with toCore := m.toCore.advance }
      { a with toCore := a.toCore.advance } := by
  obtain ⟨d, s, s', fs, hm, ha, ht, har⟩ := h
  refine ⟨?_, d.advance, s, s', fs, ?_, ?_, ht, har⟩
  · rw [hm, ha]
    rfl
  · show m.toCore.advance = _
    rw [hm]
    rfl
  · show a.toCore.advance = _
    rw [ha]
    rfl

/-- **ONE STEP** from states that correspond to states that do. -/
theorem machine_steps {c : Ctl (Machine ω)} {c' : Ctl (AliMachine ω)}
    (h : Meets (Linked base room) (Ended base) c c') (ho : Orderly base room c)
    (hb : base < 2 ^ 61) (hwords : act.initialStackWords.toInt.toNat = base)
    (hoffset : act'.initialSpOffset = base) :
    Steps base room (machineStep out.runtime act c)
      (CamlAli.step (out.aliRuntime base) act' c') := by
  cases h with
  | @next m a h =>
      obtain ⟨hop, hadv⟩ := linked_advance h
      show Steps base room (CamlUpstream.execWord out.runtime act m.operand _)
        (CamlAli.execWord _ act' a.operand _)
      rw [← hop]
      exact execWord_steps hadv hb ho.shared ho.spares (fun he => ⟨ho.above he, ho.fits he⟩)
  | dispatch w h =>
      exact execWord_steps h hb ho.shared ho.spares (fun he => ⟨ho.above he, ho.fits he⟩)
  | checkStacks h => exact checkStacks_steps h (ho.room rfl)
  | @raiseNotrace m a h =>
      obtain ⟨d, s, s', fs, hm, ha, ht, har⟩ := h
      obtain ⟨c, dom⟩ := m
      obtain ⟨c', state⟩ := a
      obtain rfl : c = atop s d := hm
      obtain rfl : c' = atop s' d := ha
      exact raiseNotrace_steps ht har hb hwords hoffset
  | halted r h => exact Alike.fault _ _

/-! ## Runs -/

/-- Steps that are alike from related states give runs that are. -/
theorem follow_alike {σ τ : Type} {R : σ → τ → Prop} {G : σ → Prop} {f : σ → C σ} {g : τ → C τ}
    (hstep : ∀ {x y}, R x y → G x → Alike R (f x) (g y)) {n : Nat} {x : σ} {y : τ} (h : R x y)
    (hG : ∀ past z, Run f x past z → past.length < n → G z) :
    Alike (fun p q => List.Forall₂ R p.1 q.1 ∧ R p.2 q.2) (follow f n x) (follow g n y) := by
  -- the first step is taken apart, so that the rest of the run starts from related states
  induction n generalizing x y with
  | zero => exact Alike.ok ⟨List.Forall₂.nil, h⟩
  | succ n ih =>
      have hfirst := hstep h (hG [] x Run.start (Nat.succ_pos n))
      unfold follow
      cases hx : f x with
      | error e =>
          rw [hx] at hfirst
          cases hy : g y with
          | error e' => exact Alike.fault _ _
          | ok y' => rw [hy] at hfirst; cases hfirst
      | ok x' =>
          rw [hx] at hfirst
          cases hy : g y with
          | error e' => rw [hy] at hfirst; cases hfirst
          | ok y' =>
              rw [hy] at hfirst
              cases hfirst with
              | ok h' =>
                  have hrest := ih h' (fun past z hrun hlt => hG _ z (Run.cons hx hrun) (by
                    rw [List.length_append, List.length_singleton]
                    omega))
                  simp only
                  cases hp : follow f n x' with
                  | error e =>
                      rw [hp] at hrest
                      cases hq : follow g n y' with
                      | error e' => exact Alike.fault _ _
                      | ok q => rw [hq] at hrest; cases hrest
                  | ok p =>
                      rw [hp] at hrest
                      cases hq : follow g n y' with
                      | error e' => rw [hq] at hrest; cases hrest
                      | ok q =>
                          rw [hq] at hrest
                          cases hrest with
                          | ok hpq =>
                              exact Alike.ok ⟨List.rel_append hpq.1
                                (List.Forall₂.cons h List.Forall₂.nil), hpq.2⟩

/-! ## What an observer sees -/

/-- The registers and the memory are the same, and so is every word of the stack that
    is not the link of one of the frames. -/
structure SameWords (frames : List Nat) (m : Machine ω) (a : AliMachine ω) : Prop where
  pc : a.pc = m.pc
  accu : a.accu = m.accu
  env : a.env = m.env
  extraArgs : a.extraArgs = m.extraArgs
  mem : a.mem = m.mem
  height : a.sp.length = m.sp.length
  words : ∀ j : Nat, (∀ h ∈ frames, (j : Int) ≠ linkIndex m h) → a.sp[j]? = m.sp[j]?

/-- The frames the links of `interp-ali.c` lead through. -/
def aliFrames (base : Nat) (a : AliMachine ω) : List Nat :=
  distanceFrames base a.sp a.sp.length a.state.trapsp

/-- Both are at the same label, with the same state up to the words of the links, and
    the links of both lead through the same frames. -/
abbrev Agree (base : Nat) : Ctl (Machine ω) → Ctl (AliMachine ω) → Prop :=
  Meets (fun m a => aliFrames base a = framesOf m ∧ SameWords (framesOf m) m a)
    (fun m a => SameWords (aliFrames base a) m a)

/-- Over a tower the two stacks hold the same words but for the links. -/
theorem tower_words {off : Long} {t : Int} (ht : Tower base s s' off t fs) {m : Machine ω}
    {a : AliMachine ω} (hm : m.toCore = atop s d) (ha : a.toCore = atop s' d) :
    SameWords fs m a := by
  obtain ⟨c, dom⟩ := m
  obtain ⟨c', state⟩ := a
  obtain rfl : c = atop s d := hm
  obtain rfl : c' = atop s' d := ha
  have hlen := ht.length_eq
  refine ⟨rfl, rfl, rfl, rfl, rfl, ?_, fun j hj => ?_⟩
  · show (d.sp ++ s').length = (d.sp ++ s).length
    rw [List.length_append, List.length_append, hlen]
  · show (d.sp ++ s')[j]? = (d.sp ++ s)[j]?
    by_cases hlt : j < d.sp.length
    · rw [List.getElem?_append_left hlt, List.getElem?_append_left hlt]
    · rw [List.getElem?_append_right (Nat.le_of_not_lt hlt),
        List.getElem?_append_right (Nat.le_of_not_lt hlt)]
      -- below the top: the height of the word is not that of a link
      by_cases hs : j - d.sp.length < s.length
      · refine ht.word_eq (fun hmem => hj _ hmem ?_)
        show (j : Int) = ((d.sp ++ s).length : Int) - (s.length - (j - d.sp.length) + 1 : Nat) + 1
        rw [List.length_append]
        omega
      · rw [List.getElem?_eq_none (by omega), List.getElem?_eq_none (by omega)]

theorem aliFrames_eq {off : Long} (hb : base < 2 ^ 61) {a : AliMachine ω}
    (ht : Tower base s s' off a.state.trapsp fs) (ha : a.toCore = atop s' d) :
    aliFrames base a = fs := by
  have hsp : a.sp = d.sp ++ s' := congrArg Core.sp ha
  unfold aliFrames
  rw [hsp]
  refine ht.distances hb d.sp ?_
  have := ht.frames_le
  rw [List.length_append, ht.length_eq]
  omega

/-- States that correspond look the same. -/
theorem linked_agree (hb : base < 2 ^ 61) {c : Ctl (Machine ω)} {c' : Ctl (AliMachine ω)}
    (h : Meets (Linked base room) (Ended base) c c') : Agree base c c' := by
  have hlinked : ∀ {m : Machine ω} {a : AliMachine ω}, Linked base room m a →
      aliFrames base a = framesOf m ∧ SameWords (framesOf m) m a := by
    rintro ⟨c, dom⟩ a ⟨d, s, s', fs, rfl, ha, ht, -⟩
    have hframes : framesOf (⟨atop s d, dom⟩ : Machine ω) = fs := framesOf_eq ht
    rw [hframes]
    exact ⟨aliFrames_eq hb ht ha, tower_words ht rfl ha⟩
  cases h with
  | next h => exact Meets.next (hlinked h)
  | dispatch w h => exact Meets.dispatch w (hlinked h)
  | checkStacks h => exact Meets.checkStacks (hlinked h)
  | raiseNotrace h => exact Meets.raiseNotrace (hlinked h)
  | halted r h =>
      obtain ⟨d, s, s', off, fs, hm, ha, ht⟩ := h
      refine Meets.halted r ?_
      rw [aliFrames_eq hb ht ha]
      exact tower_words ht hm ha

/-! ## From the entry on -/

/-- The C state both are entered with: one stack without a parent that has `room`, the
    same words on it, and no trap frame of this activation. -/
structure Entered (room : Nat) (dom : Domain ω) (state : CamlState ω) : Prop where
  around : Around room dom state
  words : dom.loadSp = .ok state.externSp
  trapsp : 0 ≤ state.trapsp ∧ state.trapsp ≤ state.externSp.length

/-- `interp.c` entered with that state, `n` steps. -/
def runNew (out : Outside ω) (prog : CodePtr) (ctx : Nat) (mem : Mem) (dom : Domain ω)
    (words : List Value) (n : Nat) : C (List (Ctl (Machine ω)) × Ctl (Machine ω)) :=
  follow (machineStep out.runtime (CamlInterp.activation dom words)) n
    (.next (CamlInterp.entry prog ctx mem dom words))

/-- `interp-ali.c` entered with that state, `n` steps. -/
def runAli (out : Outside ω) (prog : CodePtr) (buf : Nat) (mem : Mem) (state : CamlState ω)
    (n : Nat) : C (List (Ctl (AliMachine ω)) × Ctl (AliMachine ω)) :=
  follow (CamlAli.step (out.aliRuntime state.externSp.length) (CamlAli.activation state)) n
    (.next (CamlAli.entry prog buf mem state))

/-- In `n` steps from this state the two generations go through the same states, or
    neither takes `n` steps. -/
def GenerationsAgree (out : Outside ω) (prog : CodePtr) (ctx buf : Nat) (mem : Mem)
    (dom : Domain ω) (state : CamlState ω) (n : Nat) : Prop :=
  Alike (fun x y => List.Forall₂ (Agree state.externSp.length) x.1 y.1 ∧
      Agree state.externSp.length x.2 y.2)
    (runNew out prog ctx mem dom state.externSp n) (runAli out prog buf mem state n)

/-- Whatever the links, both end with the same `accu` over as many words. -/
theorem GenerationsAgree.last {prog : CodePtr} {ctx buf n : Nat} {mem : Mem}
    (h : GenerationsAgree out prog ctx buf mem dom state n) :
    Alike (fun x y => y.2.state.accu = x.2.state.accu ∧
        y.2.state.sp.length = x.2.state.sp.length)
      (runNew out prog ctx mem dom state.externSp n) (runAli out prog buf mem state n) := by
  refine Alike.mono h (fun x y hxy => ?_)
  obtain ⟨pastx, x⟩ := x
  obtain ⟨pasty, y⟩ := y
  cases hxy.2 with
  | next h => exact ⟨h.2.accu, h.2.height⟩
  | dispatch w h => exact ⟨h.2.accu, h.2.height⟩
  | checkStacks h => exact ⟨h.2.accu, h.2.height⟩
  | raiseNotrace h => exact ⟨h.2.accu, h.2.height⟩
  | halted r h => exact ⟨h.accu, h.height⟩

/-- **THE TWO GENERATIONS AGREE**: in as many steps as the run of `interp.c` is orderly,
    `interp-ali.c` goes through the same states and stops where it stops.  The words on
    entry are fewer than the `int` that `interp.c` counts them in can hold. -/
theorem generations_agree (out : Outside ω) (prog : CodePtr) (ctx buf room n : Nat) (mem : Mem)
    (dom : Domain ω) (state : CamlState ω) (h : Entered room dom state)
    (hcounted : state.externSp.length < 2 ^ 31)
    (horderly : ∀ past c,
      Run (machineStep out.runtime (CamlInterp.activation dom state.externSp))
        (.next (CamlInterp.entry prog ctx mem dom state.externSp)) past c →
      past.length < n → Orderly state.externSp.length room c) :
    GenerationsAgree out prog ctx buf mem dom state n := by
  obtain ⟨base, hbase⟩ : ∃ b, b = state.externSp.length := ⟨_, rfl⟩
  have htrap := h.trapsp
  rw [← hbase] at hcounted htrap horderly
  have hb : base < 2 ^ 61 := by omega
  -- what the `int` holds is the number of words
  have hwords :
      (CamlInterp.activation dom state.externSp).initialStackWords.toInt.toNat = base := by
    show (BitVec.ofNat 32 state.externSp.length).toInt.toNat = base
    rw [← hbase, BitVec.toInt_eq_toNat_of_lt] <;>
      rw [BitVec.toNat_ofNat, Nat.mod_eq_of_lt (by omega)]
    · exact Int.toNat_natCast base
    · omega
  have hoffset : (CamlAli.activation state).initialSpOffset = base := by
    rw [hbase]
    rfl
  have hstart : Linked base room (CamlInterp.entry prog ctx mem dom state.externSp)
      (CamlAli.entry prog buf mem state) := by
    refine ⟨(CamlAli.entry prog buf mem state).toCore, [], [], [], (atop_nil _).symm,
      (atop_nil _).symm, Tower.bottom htrap.1 htrap.2, ?_⟩
    exact ⟨h.around.backtraceActive, h.around.world, h.around.stack, h.around.threshold⟩
  have hrun := follow_alike (R := Meets (Linked base room) (Ended base))
    (G := Orderly base room)
    (f := machineStep out.runtime (CamlInterp.activation dom state.externSp))
    (g := CamlAli.step (out.aliRuntime base) (CamlAli.activation state))
    (fun hxy ho => machine_steps hxy ho hb hwords hoffset) (Meets.next hstart) horderly
  unfold GenerationsAgree runNew runAli
  rw [← hbase]
  refine hrun.mono (fun x y hxy => ?_)
  exact ⟨hxy.1.imp (fun _ _ => linked_agree hb), linked_agree hb hxy.2⟩

/-! ## Programs for both -/

/-- C code that does nothing. -/
def still : Outside Unit where
  primitive := fun _ _ mem backtraceActive w => .ok ⟨false, valUnit, mem, backtraceActive, w⟩
  stashBacktrace := fun _ _ _ _ w => w
  eventCountHit := fun w => (false, w)
  savedInstruction := fun _ _ => 0#32

/-- A program at 0x1000. -/
def loaded (code : List OpcodeWord) : Mem where
  heap := ⟨[]⟩
  code := assemble 0x1000#64 code
  globalData := valUnit
  raiseUnhandled := valUnit

/-- `words` on a main stack with room for more. -/
def newState (words : List Value) : Domain Unit :=
  domainOf [{ mainStack with words := words, size := words.length + 4096 }] 0

/-- The same words for `interp-ali.c`. -/
def aliState (words : List Value) : CamlState Unit where
  externSp := words
  trapsp := 0
  trapBarrier := -1
  stackThreshold := words.length + 4080
  externalRaise := 0
  callbackDepth := 0
  backtraceActive := false
  world := ()

theorem entered (words : List Value) :
    Entered (words.length + 4080) (newState words) (aliState words) where
  around := ⟨rfl, rfl, ⟨_, rfl, rfl, Nat.le_refl _⟩, Nat.le_refl _⟩
  words := rfl
  trapsp := ⟨Int.le_refl _, Int.natCast_nonneg _⟩

/-- `PUSHTRAP; CONST1; RAISE_NOTRACE`, with `STOP` as the handler. -/
def handledCode : List OpcodeWord :=
  [Opcode.PUSHTRAP.code, 3#32, Opcode.CONST1.code, Opcode.RAISE_NOTRACE.code, Opcode.STOP.code]

theorem generations_agree_handled :
    GenerationsAgree still 0x1000#64 9 7 (loaded handledCode) (newState [valUnit])
      (aliState [valUnit]) 5 :=
  generations_agree still 0x1000#64 9 7 4081 5 (loaded handledCode) (newState [valUnit])
    (aliState [valUnit]) (entered [valUnit]) (by decide) (fun _ c hrun hlt =>
      of_decide_eq_true (hrun.of_holdsFor (P := fun c => decide (Orderly 1 4081 c))
        (by decide) hlt))

/-! ## Where they part -/

/-- The two do not agree on a run of `n` steps through permitted states. -/
def Disagree (code : List OpcodeWord) (words : List Value) (n : Nat) : Prop :=
  Entered (words.length + 4080) (newState words) (aliState words) ∧
    (∀ past c, Run (machineStep still.runtime (CamlInterp.activation (newState words) words))
        (.next (CamlInterp.entry 0x1000#64 9 (loaded code) (newState words) words)) past c →
      past.length < n → Permitted (words.length + 4080) c) ∧
    ¬ GenerationsAgree still 0x1000#64 9 7 (loaded code) (newState words) (aliState words) n

/-- `PUSHTRAP; ACC1` reads the link, which is 1 in the one and 4 in the other. -/
theorem link_read : Disagree [Opcode.PUSHTRAP.code, 0#32, Opcode.ACC1.code] [] 2 := by
  refine ⟨entered [], fun _ c hrun hlt => ?_, fun h => ?_⟩
  · exact of_decide_eq_true (hrun.of_holdsFor (P := fun c => decide (Permitted 4080 c))
      (by decide) hlt)
  · cases h.last with
    | ok h => exact absurd h.1 (by decide)

/-- Four words of the caller popped, and a frame pushed in their place:
    `interp-ali.c` takes it for one of the caller's and returns the exception. -/
theorem frame_missed : Disagree
    [Opcode.POP.code, 4#32, Opcode.PUSHTRAP.code, 1#32, Opcode.RAISE_NOTRACE.code]
    [valUnit, valUnit, valUnit, valUnit] 4 := by
  refine ⟨entered _, fun _ c hrun hlt => ?_, fun h => ?_⟩
  · exact of_decide_eq_true (hrun.of_holdsFor (P := fun c => decide (Permitted 4084 c))
      (by decide) hlt)
  · cases h.last with
    | ok h => exact absurd h.2 (by decide)

/-- More words than `initial_stack_words` can count: on its way out with an exception
    `interp.c` puts `sp` elsewhere. -/
theorem words_miscounted (words : List Value) (hlen : words.length = 2 ^ 31) :
    Disagree [Opcode.RAISE_NOTRACE.code] words 2 := by
  refine ⟨entered _, fun _ c hrun hlt => ?_, fun h => ?_⟩
  · exact of_decide_eq_true (hrun.of_holdsFor
      (P := fun c => decide (Permitted (words.length + 4080) c)) rfl hlt)
  · cases h.last with
    | ok h =>
        have hcount : words.length = (BitVec.ofNat 32 words.length).toInt.toNat :=
          (CamlCallback.length_wordsFrom words _).symm.trans
            (h.2.trans (CamlCallback.length_wordsFrom words _))
        -- as an `int` the count is negative
        rw [hlen] at hcount
        exact absurd hcount (by decide)

/-- One program each for what `Orderly` and the bound on the words leave out. -/
theorem generations_disagree :
    Disagree [Opcode.PUSHTRAP.code, 0#32, Opcode.ACC1.code] [] 2 ∧
      Disagree [Opcode.POP.code, 4#32, Opcode.PUSHTRAP.code, 1#32, Opcode.RAISE_NOTRACE.code]
        [valUnit, valUnit, valUnit, valUnit] 4 ∧
      Disagree [Opcode.RAISE_NOTRACE.code] (List.replicate (2 ^ 31) valUnit) 2 :=
  ⟨link_read, frame_missed, words_miscounted _ List.length_replicate⟩

end CamlLockstep
