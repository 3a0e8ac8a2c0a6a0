import CamlInterp.AliProofs

/-! # Locality — how far down the stack an instruction reaches

    A body that touches only the top of the stack does the same whatever lies
    below: words put under the stack come back under the result, and the body
    fails exactly when it failed without them. -/

namespace CamlLocal

open CellStore CamlValue CamlOpcode CamlMachine CamlInstr CamlControl
open CamlAli (popFrame allocated initBlock fillPartial fillClosure fillClosures fillBlock fillFloats
  fillFloat)

/-- The registers with `rest` under the stack. -/
def atop (rest : List Value) (c : Core) : Core := { c with sp := c.sp ++ rest }

/-- What `f` does in `c` does not depend on words under the stack of `c`. -/
def Local (f : Core → C Core) (c : Core) : Prop :=
  ∀ rest, f (atop rest c) = (f c).map (atop rest)

variable {c : Core} {sp rest : List Value} {f : Core → C Core}

/-! ## The stack pointer -/

theorem map_bind {α β γ : Type} (x : C α) (k : α → C β) (h : β → γ) :
    (x >>= k).map h = x >>= fun a => (k a).map h := by
  cases x <;> rfl

theorem bind_map {α β γ : Type} (x : C α) (h : α → β) (k : β → C γ) :
    x.map h >>= k = x >>= fun a => k (h a) := by
  cases x <;> rfl

theorem spAt_append {i : Int} (h : i.toNat < sp.length) : spAt (sp ++ rest) i = spAt sp i := by
  unfold spAt
  rw [List.getElem?_append_left h]

theorem spDrop_append {n : Int} (h : n.toNat ≤ sp.length) :
    spDrop (sp ++ rest) n = (spDrop sp n).map (· ++ rest) := by
  have h' : n.toNat ≤ (sp ++ rest).length := by
    rw [List.length_append]
    omega
  unfold spDrop
  by_cases hn : 0 ≤ n
  · rw [if_pos ⟨hn, h'⟩, if_pos ⟨hn, h⟩, List.drop_append_of_le_length h]
    rfl
  · rw [if_neg (fun e => hn e.1), if_neg (fun e => hn e.1)]
    rfl

theorem spTake_append {n : Nat} (h : n ≤ sp.length) : spTake (sp ++ rest) n = spTake sp n := by
  have h' : n ≤ (sp ++ rest).length := by
    rw [List.length_append]
    omega
  unfold spTake
  rw [if_pos h', if_pos h, List.take_append_of_le_length h]

theorem spSet_append {i : Int} (h : i.toNat < sp.length) (v : Value) :
    spSet (sp ++ rest) i v = (spSet sp i v).map (· ++ rest) := by
  have h' : i.toNat < (sp ++ rest).length := by
    rw [List.length_append]
    omega
  unfold spSet
  by_cases hi : 0 ≤ i
  · rw [if_pos ⟨hi, h'⟩, if_pos ⟨hi, h⟩, List.set_append_left _ _ h]
    rfl
  · rw [if_neg (fun e => hi e.1), if_neg (fun e => hi e.1)]
    rfl

/-! ## Bodies that leave the stack alone -/

theorem push_local (c : Core) : Local push c := fun _ => rfl

theorem pushThen_local (h : Local f { c with sp := c.accu :: c.sp }) : Local (pushThen f) c := h

theorem envacc_local (n : Int) (c : Core) : Local (envacc n) c := by
  intro rest
  unfold envacc
  rw [map_bind]
  rfl

theorem envaccOperand_local (c : Core) : Local envaccOperand c :=
  fun rest => envacc_local c.operand.toInt c.advance rest

theorem pushRetaddr_local (c : Core) : Local pushRetaddr c := fun _ => rfl

theorem offsetclosure_local (n : Int) (c : Core) : Local (offsetclosure n) c := by
  intro rest
  unfold offsetclosure
  rw [map_bind]
  rfl

theorem offsetclosure0_local (c : Core) : Local offsetclosure0 c := fun _ => rfl

theorem offsetclosureOperand_local (c : Core) : Local offsetclosureOperand c :=
  fun rest => offsetclosure_local c.operand.toInt c.advance rest

theorem getglobal_local (c : Core) : Local getglobal c := by
  intro rest
  unfold getglobal
  rw [map_bind]
  rfl

theorem getfield_local (n : Int) (c : Core) : Local (getfield n) c := by
  intro rest
  unfold getfield
  rw [map_bind]
  rfl

theorem getfieldOperand_local (c : Core) : Local getfieldOperand c := by
  intro rest
  unfold getfieldOperand
  rw [map_bind]
  rfl

theorem getglobalfield_local (c : Core) : Local getglobalfield c := by
  intro rest
  unfold getglobalfield
  rw [getglobal_local c rest, bind_map, map_bind]
  congr 1
  funext c'
  exact getfieldOperand_local c' rest

theorem setglobal_local (c : Core) : Local setglobal c := by
  intro rest
  unfold setglobal
  rw [map_bind]
  rfl

theorem atom_local (n : Int) (c : Core) : Local (atom n) c := fun _ => rfl

theorem atomOperand_local (c : Core) : Local atomOperand c := fun _ => rfl

theorem vectlength_local (c : Core) : Local vectlength c := by
  intro rest
  unfold vectlength
  simp only [map_bind]
  rfl

theorem branchWhen_local (b : Bool) (c : Core) : Local (branchWhen b) c := by
  intro rest
  cases b <;> rfl

theorem branchif_local (c : Core) : Local branchif c := by
  intro rest
  unfold branchif
  rw [map_bind]
  congr 1
  funext b
  exact branchWhen_local _ c rest

theorem branchifnot_local (c : Core) : Local branchifnot c := by
  intro rest
  unfold branchifnot
  rw [map_bind]
  congr 1
  funext b
  exact branchWhen_local _ c rest

/-- `SWITCH` does not look at the stack. -/
theorem switch_local (c : Core) : Local switch c := by
  intro rest
  unfold switch
  simp only [map_bind]
  congr 1
  funext b
  cases b with
  | true =>
      simp only [if_true, map_bind]
      rfl
  | false =>
      simp only [Bool.false_eq_true, if_false, map_bind]
      rfl

theorem unop_local (g : BitVec 64 → BitVec 64) (c : Core) : Local (unop g) c := by
  intro rest
  unfold unop
  rw [map_bind]
  rfl

theorem boolnot_local (c : Core) : Local boolnot c := by
  intro rest
  unfold boolnot
  rw [map_bind]
  rfl

theorem const_local (n : Int) (c : Core) : Local (const n) c := fun _ => rfl

theorem constint_local (c : Core) : Local constint c := fun _ => rfl

theorem branchComparison_local (tst : BitVec 64 → BitVec 64 → Bool) (c : Core) :
    Local (branchComparison tst) c := by
  intro rest
  unfold branchComparison
  rw [map_bind]
  congr 1
  funext w
  exact branchWhen_local _ c.advance rest

theorem offsetint_local (c : Core) : Local offsetint c := by
  intro rest
  unfold offsetint
  rw [map_bind]
  rfl

theorem offsetref_local (c : Core) : Local offsetref c := by
  intro rest
  unfold offsetref
  simp only [map_bind]
  rfl

theorem isint_local (c : Core) : Local isint c := by
  intro rest
  unfold isint
  rw [map_bind]
  rfl

/-- `GETPUBMET` looks at the heap and pushes one word. -/
theorem getpubmet_local (c : Core) : Local getpubmet c := by
  intro rest
  unfold getpubmet
  simp only [map_bind]
  congr 1
  funext meths
  congr 1
  funext mask
  congr 1
  funext w
  congr 1
  funext entry
  congr 1
  funext b
  cases b with
  | true =>
      simp only [if_true, map_bind]
      rfl
  | false =>
      simp only [Bool.false_eq_true, if_false, map_bind]
      rfl

/-! ## Bodies that use the top of the stack -/

theorem pop_local (h : c.operand.toInt.toNat ≤ c.sp.length) : Local pop c := by
  intro rest
  show (spDrop (c.sp ++ rest) c.operand.toInt >>= _) = _
  rw [spDrop_append h, bind_map]
  unfold pop
  rw [map_bind]
  rfl

theorem setfield_local (n : Int) (h : 1 ≤ c.sp.length) : Local (setfield n) c := by
  intro rest
  unfold setfield
  simp only [atop, spAt_append (i := 0) h, spDrop_append (n := 1) h, map_bind, bind_map]
  rfl

theorem setfieldOperand_local (h : 1 ≤ c.sp.length) : Local setfieldOperand c := by
  intro rest
  show (setfield c.operand.toInt (atop rest c) >>= _) = _
  rw [setfield_local _ h rest, bind_map]
  unfold setfieldOperand
  rw [map_bind]
  rfl

theorem setfloatfield_local (h : 1 ≤ c.sp.length) : Local setfloatfield c := by
  intro rest
  unfold setfloatfield
  simp only [atop, spAt_append (i := 0) h, spDrop_append (n := 1) h, map_bind, bind_map]
  rfl

theorem getvectitem_local (h : 1 ≤ c.sp.length) : Local getvectitem c := by
  intro rest
  unfold getvectitem
  simp only [atop, spAt_append (i := 0) h, spDrop_append (n := 1) h, map_bind, bind_map]
  rfl

theorem setvectitem_local (h : 2 ≤ c.sp.length) : Local setvectitem c := by
  have h0 : 0 < c.sp.length := Nat.lt_of_lt_of_le (by decide) h
  intro rest
  unfold setvectitem
  simp only [atop, spAt_append (i := 0) h0, spAt_append (i := 1) h, spDrop_append (n := 2) h,
    map_bind, bind_map]
  rfl

theorem getbyteschar_local (h : 1 ≤ c.sp.length) : Local getbyteschar c := by
  intro rest
  unfold getbyteschar
  simp only [atop, spAt_append (i := 0) h, spDrop_append (n := 1) h, map_bind, bind_map]
  rfl

theorem setbyteschar_local (h : 2 ≤ c.sp.length) : Local setbyteschar c := by
  have h0 : 0 < c.sp.length := Nat.lt_of_lt_of_le (by decide) h
  intro rest
  unfold setbyteschar
  simp only [atop, spAt_append (i := 0) h0, spAt_append (i := 1) h, spDrop_append (n := 2) h,
    map_bind, bind_map]
  rfl

theorem binop_local (g : BitVec 64 → BitVec 64 → C (BitVec 64)) (h : 1 ≤ c.sp.length) :
    Local (binop g) c := by
  intro rest
  unfold binop
  simp only [atop, spAt_append (i := 0) h, spDrop_append (n := 1) h, map_bind, bind_map]
  rfl

theorem equality_local (b : Bool) (h : 1 ≤ c.sp.length) : Local (equality b) c := by
  intro rest
  unfold equality
  simp only [atop, spAt_append (i := 0) h, spDrop_append (n := 1) h, map_bind, bind_map]
  rfl

theorem comparison_local (tst : BitVec 64 → BitVec 64 → Bool) (h : 1 ≤ c.sp.length) :
    Local (comparison tst) c := by
  intro rest
  unfold comparison
  simp only [atop, spAt_append (i := 0) h, spDrop_append (n := 1) h, map_bind, bind_map]
  rfl

theorem getmethod_local (h : 1 ≤ c.sp.length) : Local getmethod c := by
  intro rest
  unfold getmethod
  simp only [atop, spAt_append (i := 0) h, map_bind]
  rfl

theorem getdynmet_local (h : 1 ≤ c.sp.length) : Local getdynmet c := by
  intro rest
  unfold getdynmet
  simp only [atop, spAt_append (i := 0) h, map_bind]
  rfl

/-! ## Calls -/

theorem enterClosure_local (c : Core) : Local enterClosure c := by
  intro rest
  unfold enterClosure
  rw [map_bind]
  rfl

theorem apply_local (c : Core) : Local apply c := fun rest =>
  enterClosure_local { c with extraArgs := BitVec.ofInt 63 (c.operand.toInt - 1) } rest

theorem applyArgs_local {n : Nat} (h : n ≤ c.sp.length) : Local (applyArgs n) c := by
  intro rest
  show (spTake (c.sp ++ rest) n >>= _) = _
  rw [spTake_append h]
  unfold applyArgs
  rw [map_bind]
  congr 1
  funext args
  rw [← enterClosure_local _ rest]
  simp only [atop, List.drop_append_of_le_length h, List.append_assoc, List.cons_append]

theorem length_spSet {i : Int} {v : Value} {sp' : List Value} (h : spSet sp i v = .ok sp') :
    sp'.length = sp.length := by
  unfold spSet at h
  split at h
  · rw [← Except.ok.inj h, List.length_set]
  · exact nomatch h

theorem length_slide {d n : Nat} {sp' : List Value} (h : slide d n sp = .ok sp') :
    sp'.length = sp.length := by
  induction n generalizing sp with
  | zero => rw [← Except.ok.inj h]
  | succ n ih =>
      obtain ⟨v, -, h⟩ := bind_eq_ok.mp h
      obtain ⟨sp1, hset, h⟩ := bind_eq_ok.mp h
      rw [ih h, length_spSet hset]

/-- A slide within the upper part of a stack. -/
theorem slide_append {d n : Nat} (h : d + n ≤ sp.length) :
    slide d n (sp ++ rest) = (slide d n sp).map (· ++ rest) := by
  induction n generalizing sp with
  | zero => rfl
  | succ n ih =>
      have hat : ((n : Nat) : Int).toNat < sp.length := by omega
      have hset : ((d : Int) + (n : Nat)).toNat < sp.length := by omega
      show (spAt (sp ++ rest) n >>= fun v => spSet (sp ++ rest) (d + n) v >>= slide d n) = _
      rw [spAt_append hat]
      simp only [spSet_append hset, bind_map]
      show _ = (spAt sp n >>= fun v => spSet sp (d + n) v >>= slide d n).map _
      simp only [map_bind]
      congr 1
      funext v
      cases hs : spSet sp (d + n) v with
      | error e => rfl
      | ok sp1 =>
          -- the next word is moved on a stack of the same length
          have hlen := length_spSet hs
          exact ih (by omega)

/-- `APPTERM` looks no deeper than its slot size. -/
theorem appterm_local (h : c.advance.operand.toInt.toNat ≤ c.sp.length) : Local appterm c := by
  intro rest
  show (if 0 ≤ c.operand.toInt ∧ c.operand.toInt ≤ c.advance.operand.toInt then _ else _) = _
  unfold appterm
  by_cases hn : 0 ≤ c.operand.toInt ∧ c.operand.toInt ≤ c.advance.operand.toInt
  · simp only [if_pos hn, map_bind]
    have hslide : (c.advance.operand.toInt - c.operand.toInt).toNat + c.operand.toInt.toNat
        ≤ c.sp.length := by omega
    show (slide (c.advance.operand.toInt - c.operand.toInt).toNat c.operand.toInt.toNat
      (c.sp ++ rest) >>= _) = _
    rw [slide_append hslide, bind_map]
    show _ = (slide _ _ c.sp >>= _)
    cases hs : slide (c.advance.operand.toInt - c.operand.toInt).toNat
        c.operand.toInt.toNat c.sp with
    | error e => rfl
    | ok sp1 =>
        have hlen := length_slide hs
        have hdrop : (c.advance.operand.toInt - c.operand.toInt).toNat ≤ sp1.length := by omega
        show (spDrop (sp1 ++ rest) (c.advance.operand.toInt - c.operand.toInt) >>= _) = _
        rw [spDrop_append hdrop, bind_map]
        show _ = (spDrop sp1 _ >>= _)
        congr 1
        funext sp2
        rw [← enterClosure_local _ rest]
        rfl
  · rw [if_neg hn, if_neg hn]
    rfl

/-- Nor do `APPTERM1` to `APPTERM3`. -/
theorem apptermArgs_local {n : Nat} (hn : n ≤ c.sp.length)
    (h : c.operand.toInt.toNat ≤ c.sp.length) : Local (apptermArgs n) c := by
  intro rest
  show (spTake (c.sp ++ rest) n >>= fun args =>
    spDrop (c.sp ++ rest) (c.operand.toInt - n) >>= _) = _
  have hdrop : (c.operand.toInt - n).toNat ≤ c.sp.length := by omega
  rw [spTake_append hn, spDrop_append hdrop]
  unfold apptermArgs
  simp only [map_bind, bind_map]
  congr 1
  funext args
  by_cases hneg : 0 ≤ c.operand.toInt - n
  · have hbelow : spDrop c.sp (c.operand.toInt - n) = .ok (c.sp.drop (c.operand.toInt - n).toNat) :=
      if_pos ⟨hneg, hdrop⟩
    have hrest : ((n : Nat) : Int).toNat ≤ (c.sp.drop (c.operand.toInt - n).toNat).length := by
      rw [List.length_drop]
      omega
    rw [hbelow]
    show (spDrop (_ ++ rest) n >>= _) = (spDrop _ n >>= _)
    rw [spDrop_append hrest, bind_map]
    congr 1
    funext below
    rw [← enterClosure_local _ rest]
    simp only [atop, List.append_assoc]
  · have hbelow : spDrop c.sp (c.operand.toInt - n) = .error .undefined :=
      if_neg (fun e => hneg e.1)
    rw [hbelow]
    rfl

theorem returnSurplus_local (c : Core) : Local returnSurplus c :=
  fun rest => enterClosure_local { c with extraArgs := c.extraArgs - 1#63 } rest

/-- `RESTART` looks at the words it pushes over. -/
theorem restart_local (h : ∀ {n : Nat}, wosizeVal c.mem.heap c.env = .ok n → 3 - n ≤ c.sp.length) :
    Local restart c := by
  intro rest
  show (wosizeVal c.mem.heap c.env >>= _) = _
  unfold restart
  rw [map_bind]
  cases hw : wosizeVal c.mem.heap c.env with
  | error e => rfl
  | ok n =>
      have hn := h hw
      simp only [bind, Except.bind]
      by_cases h3 : (0 : Int) ≤ (n : Int) - 3
      · simp only [if_pos h3]
        cases hfs : fieldsFrom c.mem.heap c.env 3 ((n : Int) - 3).toNat with
        | error e => simp only [atop, hfs]; rfl
        | ok args =>
            simp only [atop, hfs, Except.map]
            cases field c.mem.heap c.env 2 with
            | error e => rfl
            | ok v => simp only [List.append_assoc]
      · have hdrop : (-((n : Int) - 3)).toNat ≤ c.sp.length := by omega
        simp only [if_neg h3, atop, spDrop_append hdrop]
        cases spDrop c.sp (-((n : Int) - 3)) with
        | error e => rfl
        | ok sp1 =>
            cases field c.mem.heap c.env 2 with
            | error e => rfl
            | ok v => rfl

/-! ## Allocation -/

theorem popFrame_local (h : 3 ≤ c.sp.length) : Local popFrame c := by
  intro rest
  obtain ⟨pc, sp, accu, env, extraArgs, mem⟩ := c
  obtain ⟨w0, w1, w2, sp, rfl⟩ : ∃ w0 w1 w2 l, sp = w0 :: w1 :: w2 :: l := by
    match sp, h with
    | w0 :: w1 :: w2 :: l, _ => exact ⟨w0, w1, w2, l, rfl⟩
  show (codeOf w0 >>= _) = ((codeOf w0 >>= _) : C Core).map _
  simp only [map_bind]
  rfl

theorem allocated_local {wosize tag : Nat} {fill : Value → Core → C Core}
    (h : ∀ v mem, Local (fill v) { c with mem := mem }) :
    Local (allocated wosize tag fill) c := by
  intro rest
  exact h (allocBlock c.mem.heap tag (List.replicate wosize .undef)).1
    { c.mem with heap := (allocBlock c.mem.heap tag (List.replicate wosize .undef)).2 } rest

theorem initBlock_atop (c : Core) (v : Value) (tag : Nat) (fields : List Value) :
    initBlock (atop rest c) v tag fields = (initBlock c v tag fields).map (atop rest) := by
  cases v <;> rfl

theorem initBlock_sp {c c' : Core} {v : Value} {tag : Nat} {fields : List Value}
    (h : initBlock c v tag fields = .ok c') : c'.sp = c.sp := by
  unfold initBlock at h
  split at h
  · rw [← Except.ok.inj h]
  · exact nomatch h

/-- Reading `n` words, filling the block with them and going on from there. -/
theorem filled_local {n : Nat} (tag : Nat) (v : Value) {g : Core → List Value → C (List Value)}
    {k : Core → C Core} (hn : n ≤ c.sp.length) (hg : ∀ rest, g (atop rest c) = g c)
    (hk : ∀ c', c'.sp = c.sp → Local k c') :
    Local (fun c => do
      let args ← spTake c.sp n
      let c ← initBlock c v tag (← g c args)
      k c) c := by
  intro rest
  show (spTake (c.sp ++ rest) n >>= _) = _
  rw [spTake_append hn, map_bind]
  congr 1
  funext args
  rw [map_bind, hg rest]
  congr 1
  funext fs
  rw [initBlock_atop, bind_map, map_bind]
  cases hi : initBlock c v tag fs with
  | error e => rfl
  | ok c' => exact hk c' (initBlock_sp hi) rest

/-- A partial closure takes the arguments and the frame. -/
theorem fillPartial_local {n : Nat} (v : Value) (h : n + 3 ≤ c.sp.length) :
    Local (fillPartial n v) c := by
  refine filled_local closureTag v (g := fun c args =>
    .ok (ofCode (c.pc - 12#64) :: .word (makeClosinfo 0 2) :: c.env :: args))
    (k := fun c => popFrame { c with accu := v, sp := c.sp.drop n }) (by omega) (fun _ => rfl) ?_
  intro c' hsp rest
  have hlen : c'.sp.length = c.sp.length := congrArg List.length hsp
  have hpop : 3 ≤ (c'.sp.drop n).length := by
    rw [List.length_drop]
    omega
  rw [← popFrame_local (c := { c' with accu := v, sp := c'.sp.drop n }) hpop rest]
  simp only [atop, List.drop_append_of_le_length (show n ≤ c'.sp.length by omega)]

/-- A check that does not look at the stack, in front of code that is local. -/
theorem checked_local {x : C Unit} {k : Core → C Core} (h : Local k c) :
    Local (fun c => x >>= fun _ => k c) c := by
  intro rest
  show (x >>= fun _ => k (atop rest c)) = (x >>= fun _ => k c).map (atop rest)
  rw [map_bind, h rest]

/-- A closure takes its variables. -/
theorem fillClosure_local {nvars : OpcodeWord} (v : Value) (h : nvars.toInt.toNat ≤ c.sp.length) :
    Local (fillClosure nvars v) c := by
  refine checked_local (filled_local closureTag v (g := fun c args =>
    .ok (ofCode (c.codeAt c.operand) :: .word (makeClosinfo 0 2) :: args))
    (k := fun c => .ok { c with
      accu := v, sp := c.sp.drop nvars.toInt.toNat, pc := c.pc + 4#64 })
    h (fun _ => rfl) ?_)
  intro c' hsp rest
  have hlen : nvars.toInt.toNat ≤ c'.sp.length := by
    rw [hsp]
    exact h
  simp only [atop, List.drop_append_of_le_length hlen]
  rfl

theorem infixFields_atop (rest : List Value) (c : Core) (n i envofs : Nat) :
    infixFields (atop rest c) n i envofs = infixFields c n i envofs := by
  induction n generalizing i envofs with
  | zero => rfl
  | succ n ih =>
      simp only [infixFields, ih]
      rfl

theorem infixClosures_append (b n i : Nat) (sp rest : List Value) :
    infixClosures b n i (sp ++ rest) = infixClosures b n i sp ++ rest := by
  induction n generalizing i sp with
  | zero => rfl
  | succ n ih => exact ih (i + 1) (.ptr b (3 * i) :: sp)

/-- What `CLOSUREREC` stores in the block. -/
def closureFields (nfuncs : OpcodeWord) (c : Core) (vars : List Value) : C (List Value) :=
  .ok (recFields c nfuncs.toInt.toNat (envOffset nfuncs) vars)

theorem closureFields_atop (nfuncs : OpcodeWord) (c : Core) (rest : List Value) :
    closureFields nfuncs (atop rest c) = closureFields nfuncs c := by
  funext vars
  unfold closureFields recFields
  rw [infixFields_atop]
  rfl

/-- Recursive closures take their variables. -/
theorem fillClosures_local {nfuncs nvars : OpcodeWord} (v : Value)
    (h : nvars.toInt.toNat ≤ c.sp.length) : Local (fillClosures nfuncs nvars v) c := by
  have hfault := fun v => checked_local (x := withinBlock (roomForRec nfuncs nvars))
    (filled_local closureTag v (g := closureFields nfuncs)
      (k := fun _ : Core => (.error .undefined : C Core)) h (closureFields_atop nfuncs c)
      (fun _ _ _ => rfl))
  cases v with
  | ptr b ofs =>
      refine checked_local (filled_local closureTag (.ptr b ofs) (g := closureFields nfuncs)
        (k := fun c => .ok { c with
          accu := .ptr b ofs,
          sp := infixClosures b (nfuncs.toInt.toNat - 1) 1
            (.ptr b ofs :: c.sp.drop nvars.toInt.toNat),
          pc := c.pc + BitVec.ofInt 64 (4 * nfuncs.toInt) }) h (closureFields_atop nfuncs c) ?_)
      intro c' hsp rest
      have hdrop : (c'.sp ++ rest).drop nvars.toInt.toNat
          = c'.sp.drop nvars.toInt.toNat ++ rest :=
        List.drop_append_of_le_length (by rw [hsp]; exact h)
      simp only [atop, hdrop, ← List.cons_append, infixClosures_append]
      rfl
  | undef => exact hfault .undef
  | word w => exact hfault (.word w)
  | atom t => exact hfault (.atom t)
  | stk s => exact hfault (.stk s)

theorem fillBlock_local {wosize tag : Nat} (v : Value) (h : wosize - 1 ≤ c.sp.length) :
    Local (fillBlock wosize tag v) c := by
  refine filled_local tag v (g := fun c args => .ok (c.accu :: args))
    (k := fun c => .ok { c with accu := v, sp := c.sp.drop (wosize - 1) }) h (fun _ => rfl) ?_
  intro c' hsp rest
  simp only [atop,
    List.drop_append_of_le_length (show wosize - 1 ≤ c'.sp.length by rw [hsp]; exact h)]
  rfl

theorem fillFloats_local {size : Nat} (v : Value) (h : size - 1 ≤ c.sp.length) :
    Local (fillFloats size v) c := by
  refine filled_local doubleArrayTag v (g := fun c args => doubleVals c.mem.heap (c.accu :: args))
    (k := fun c => .ok { c with accu := v, sp := c.sp.drop (size - 1) }) h (fun _ => rfl) ?_
  intro c' hsp rest
  simp only [atop,
    List.drop_append_of_le_length (show size - 1 ≤ c'.sp.length by rw [hsp]; exact h)]
  rfl

theorem fillFloat_local (d v : Value) (c : Core) : Local (fillFloat d v) c := by
  intro rest
  unfold fillFloat
  rw [initBlock_atop, bind_map, map_bind]
  rfl

end CamlLocal
