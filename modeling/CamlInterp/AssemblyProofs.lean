import CamlInterp.EmitProofs

/-! # Assembly — labelled code and what `emit` writes for it

    `emit` may be given any list of instructions.  Where no label is placed twice
    it goes through, unless two debug events cannot be merged; and what it has
    written is a sequence of instructions and labels, every label where the code
    behind it starts, and every word that refers to a label holding the distance
    to it once all labels are placed. -/

namespace CamlAssembly

open CamlEmit CamlOpcode

/-! ## Labels in a piece of code -/

/-- The labels placed in a piece of code, each with what follows it. -/
def labelled : Code → List (Label × Code)
  | [] => []
  | .Klabel lbl :: c => (lbl, c) :: labelled c
  | _ :: c => labelled c

/-- The labels placed in a piece of code. -/
def labelsOf (c : Code) : List Label := (labelled c).map Prod.fst

/-- The labels an instruction refers to. -/
def refs : Instruction → List Label
  | .Kpush_retaddr lbl => [lbl]
  | .Kclosure lbl _ => [lbl]
  | .Kclosurerec lbls _ => lbls
  | .Kbranch lbl => [lbl]
  | .Kbranchif lbl => [lbl]
  | .Kbranchifnot lbl => [lbl]
  | .Kstrictbranchif lbl => [lbl]
  | .Kstrictbranchifnot lbl => [lbl]
  | .Kswitch tblConst tblBlock => tblConst ++ tblBlock
  | .Kpushtrap lbl => [lbl]
  | _ => []

/-- The labels a piece of code refers to. -/
def refsOf (c : Code) : List Label := c.flatMap refs

/-- How many events a piece of code has. -/
def eventsOf : Code → Nat
  | [] => 0
  | .Kevent _ :: c => eventsOf c + 1
  | _ :: c => eventsOf c

@[simp] theorem labelled_label (lbl : Label) (c : Code) :
    labelled (.Klabel lbl :: c) = (lbl, c) :: labelled c := rfl

@[simp] theorem refsOf_cons (i : Instruction) (c : Code) : refsOf (i :: c) = refs i ++ refsOf c :=
  List.flatMap_cons

theorem labelsOf_append (a b : Code) : labelsOf (a ++ b) = labelsOf a ++ labelsOf b := by
  induction a with
  | nil => rfl
  | cons i a ih =>
      cases i with
      | Klabel lbl => exact congrArg (lbl :: ·) ih
      | _ => exact ih

theorem refsOf_append (a b : Code) : refsOf (a ++ b) = refsOf a ++ refsOf b :=
  List.flatMap_append

theorem labelsOf_of_suffix {c c' : Code} (h : labelled c <:+ labelled c') {l : Label}
    (hl : l ∈ labelsOf c) : l ∈ labelsOf c' :=
  (h.map Prod.fst).subset hl

/-- An event is neither a label nor refers to one. -/
theorem remergeEvents_labels {ev : DebugEvent} {c c' : Code} (h : remergeEvents ev c = .ok c') :
    labelsOf c' = labelsOf c ∧ refsOf c' = refsOf c := by
  obtain ⟨ev', rfl | ⟨ev2, c1, rfl, rfl⟩⟩ := remergeEvents_cons h
  · exact ⟨rfl, rfl⟩
  · exact ⟨rfl, rfl⟩

/-! ## Labels of the emitter -/

/-- `lbl` is defined. -/
def Placed (e : Emitter) (lbl : Label) : Prop := ∃ pos, e.labelTable lbl = .Label_defined pos

/-- `lbl` has references to be patched. -/
def Open (e : Emitter) (lbl : Label) : Prop :=
  ∃ p patchlist, e.labelTable lbl = .Label_undefined (p :: patchlist)

theorem Open.not_placed {e : Emitter} {l : Label} (h : Open e l) : ¬ Placed e l := by
  obtain ⟨p, ps, h⟩ := h
  rintro ⟨pos, h'⟩
  rw [h] at h'
  cases h'

/-- Nothing is defined at the start. -/
theorem init_not_placed {l : Label} : ¬ Placed init l := by
  rintro ⟨pos, h⟩
  cases h

theorem init_not_open {l : Label} : ¬ Open init l := by
  rintro ⟨p, ps, h⟩
  cases h

/-- From `e` to `e'` the labels `ls` were defined, and the labels `rs` referred to. -/
structure Emits (ls rs : List Label) (e e' : Emitter) : Prop where
  placed : ∀ l, Placed e' l ↔ Placed e l ∨ l ∈ ls
  opened : ∀ {l}, Open e' l → Open e l ∨ l ∈ rs

theorem Emits.of_table {e e' : Emitter} (h : e'.labelTable = e.labelTable) : Emits [] [] e e' := by
  constructor
  · intro l
    simp [Placed, h]
  · intro l hl
    rw [Open, h] at hl
    exact .inl hl

theorem Emits.trans {ls ls' rs rs' : List Label} {e e1 e' : Emitter} (h : Emits ls rs e e1)
    (h' : Emits ls' rs' e1 e') : Emits (ls ++ ls') (rs ++ rs') e e' := by
  constructor
  · intro l
    rw [h'.placed, h.placed, List.mem_append, or_assoc]
  · intro l hl
    rw [List.mem_append, ← or_assoc]
    exact (h'.opened hl).imp_left h.opened

/-- A label operand is a reference, open until its label is placed. -/
theorem outLabelWithOrig_emits (org : Nat) (e : Emitter) (lbl : Label) :
    Emits [] [lbl] e (Emitter.outLabelWithOrig org e lbl) := by
  unfold Emitter.outLabelWithOrig
  cases hl : e.labelTable lbl with
  | Label_defined pos =>
      have h0 : Emits [] [] e (e.outInt (((pos : Int) - org) >>> (2 : Nat))) := .of_table rfl
      exact ⟨h0.placed, fun ho => .inl ((h0.opened ho).resolve_right List.not_mem_nil)⟩
  | Label_undefined patchlist =>
      constructor
      · intro l
        by_cases hll : l = lbl
        · subst hll
          simp [Placed, Emitter.outInt, Emitter.outWord, Emitter.setLabel, hl]
        · simp [Placed, Emitter.outInt, Emitter.outWord, Emitter.setLabel, hll]
      · rintro l ⟨p, ps, ho⟩
        by_cases hll : l = lbl
        · exact .inr (List.mem_singleton.mpr hll)
        · have ht : e.labelTable l = .Label_undefined (p :: ps) := by
            rw [← ho]
            exact (if_neg hll).symm
          exact .inl ⟨p, ps, ht⟩

theorem outLabels_emits (org : Nat) (lbls : List Label) (e : Emitter) :
    Emits [] lbls e (e.outLabels org lbls) := by
  induction lbls generalizing e with
  | nil => exact .of_table rfl
  | cons lbl lbls ih => exact (outLabelWithOrig_emits org e lbl).trans (ih _)

/-- The labels among the operands of an instruction. -/
def operandLabels : List Operand → List Label
  | [] => []
  | .labels lbls :: os => lbls ++ operandLabels os
  | _ :: os => operandLabels os

/-- The operands of an instruction refer to its labels and place none. -/
theorem outOperands_emits (os : List Operand) (e : Emitter) :
    Emits [] (operandLabels os) e (os.foldl Emitter.outOperand e) := by
  induction os generalizing e with
  | nil => exact .of_table rfl
  | cons o os ih =>
      cases o with
      | int n =>
          have h0 : Emits [] [] e (e.outInt n) := .of_table rfl
          exact h0.trans (ih _)
      | slot info =>
          have h0 : Emits [] [] e (e.slotFor info) := .of_table rfl
          exact h0.trans (ih _)
      | labels lbls => exact (outLabels_emits _ lbls e).trans (ih _)

theorem outInstr_emits (i : Encoding) (e : Emitter) :
    Emits [] (operandLabels i.operands) e (e.outInstr i) := by
  have h0 : Emits [] [] e (e.out i.opcode) := .of_table rfl
  exact h0.trans (outOperands_emits i.operands _)

theorem backpatches_table (patchlist : List (Nat × Nat)) (e : Emitter) :
    (patchlist.foldl Emitter.backpatch e).labelTable = e.labelTable := by
  induction patchlist generalizing e with
  | nil => rfl
  | cons p patchlist ih => exact ih _

/-- A label that is not defined yet can be defined. -/
theorem defineLabel_emits {e : Emitter} {lbl : Label} (h : ¬ Placed e lbl) :
    ∃ e', e.defineLabel lbl = .ok e' ∧ Emits [lbl] [] e e' := by
  unfold Emitter.defineLabel
  cases hl : e.labelTable lbl with
  | Label_defined pos => exact absurd ⟨pos, hl⟩ h
  | Label_undefined patchlist =>
      refine ⟨_, rfl, ?_, ?_⟩
      · intro l
        rw [List.mem_singleton]
        by_cases hll : l = lbl
        · simp [Placed, Emitter.setLabel, hll]
        · simp [Placed, Emitter.setLabel, hll, backpatches_table]
      · rintro l ⟨p, ps, ho⟩
        by_cases hll : l = lbl
        · simp [Emitter.setLabel, hll] at ho
        · simp only [Emitter.setLabel, hll, if_false, backpatches_table] at ho
          exact .inl ⟨p, ps, ho⟩

theorem constEncoding_labels (op0 op1 op2 op3 op4 : Opcode) (sc : StructuredConstant) :
    operandLabels (constEncoding op0 op1 op2 op3 op4 sc).operands = [] := by
  fun_cases constEncoding op0 op1 op2 op3 op4 sc <;> rfl

/-- The labels written are those the instruction refers to. -/
theorem encoding_labels {i : Instruction} {enc : Encoding} (h : encoding i = some enc) :
    operandLabels enc.operands = refs i := by
  cases i with
  | Klabel lbl => cases h
  | Kevent ev => cases h
  | Kconst sc =>
      obtain rfl := Option.some.inj h
      exact constEncoding_labels ..
  | Kintcomp cmp =>
      obtain rfl := Option.some.inj h
      cases cmp <;> rfl
  | Kraise k => cases k <;> (obtain rfl := Option.some.inj h; rfl)
  | _ =>
      obtain rfl := Option.some.inj h
      -- an instruction with a short form chooses between two
      first
        | rfl
        | exact List.append_nil _
        | (split <;> rfl)
        | (split <;> first | rfl | (split <;> rfl))

/-- One instruction is written, or its label is defined. -/
theorem emitInstr_emits {i : Instruction} {e : Emitter}
    (h : ∀ {l}, l ∈ labelsOf [i] → ¬ Placed e l) :
    ∃ e', e.emitInstr i = .ok e' ∧ Emits (labelsOf [i]) (refs i) e e' := by
  unfold Emitter.emitInstr
  split
  · next lbl => exact defineLabel_emits (h (List.mem_singleton_self lbl))
  · next hi =>
      have hlab : labelsOf [i] = [] := by
        cases i with
        | Klabel lbl => exact absurd rfl (hi lbl)
        | _ => rfl
      rw [hlab]
      cases henc : encoding i with
      | some enc => exact ⟨_, rfl, encoding_labels henc ▸ outInstr_emits enc e⟩
      | none =>
          have h0 : Emits [] [] e e := .of_table rfl
          exact ⟨e, rfl, h0.placed, fun ho => .inl ((h0.opened ho).resolve_right List.not_mem_nil)⟩

theorem branchConst_labels {op : Opcode} {k : StructuredConstant} {lbl : Label}
    (h : isImmedConst k = true) :
    ∃ enc, branchConstEncoding op k lbl = .ok enc ∧ operandLabels enc.operands = [lbl] := by
  unfold isImmedConst at h
  unfold branchConstEncoding
  cases hc : constAsInt k with
  | some i => exact ⟨_, rfl, rfl⟩
  | none =>
      rw [hc] at h
      cases h

theorem pushacc_labels (n : Int) : operandLabels (pushaccEncoding n).operands = [] := by
  unfold pushaccEncoding
  split <;> rfl

theorem pushenvacc_labels (n : Int) : operandLabels (pushenvaccEncoding n).operands = [] := by
  unfold pushenvaccEncoding
  split <;> rfl

theorem pushoffsetclosure_labels (n : Int) :
    operandLabels (pushoffsetclosureEncoding n).operands = [] := by
  unfold pushoffsetclosureEncoding
  split <;> rfl

theorem pushconst_labels (sc : StructuredConstant) :
    operandLabels (pushconstEncoding sc).operands = [] :=
  constEncoding_labels ..

/-! ## Emission goes through -/

/-- The fatal errors of `merge_infos` and `merge_repr`. -/
def MergeError (msg : String) : Prop := msg = "Bytegen.merge_infos" ∨ msg = "Bytegen.merge_repr"

/-- Two events are merged, or one of the two fatal errors is raised. -/
theorem mergeEvents_error {ev ev' : DebugEvent} {msg : String}
    (h : mergeEvents ev ev' = .error msg) : MergeError msg := by
  have hrepr : ∀ {ev ev' : DebugEvent} {msg : String}, mergeRepr ev ev' = .error msg →
      msg = "Bytegen.merge_repr" := by
    intro ev ev' msg h
    unfold mergeRepr at h
    split at h
    all_goals first
      | cases h
        done
      | cases h
        rfl
      | (split at h <;> cases h; rfl)
  have hinfos : ∀ {ev ev' : DebugEvent} {msg : String}, mergeInfos ev ev' = .error msg →
      msg = "Bytegen.merge_infos" := by
    intro ev ev' msg h
    unfold mergeInfos at h
    split at h <;> cases h
    rfl
  unfold mergeEvents at h
  dsimp only at h
  generalize (majorMinor ev ev').1 = maj at h
  generalize (majorMinor ev ev').2 = min at h
  cases hr : mergeRepr maj min with
  | error m =>
      rw [hr] at h
      cases h
      exact .inr (hrepr hr)
  | ok repr =>
      rw [hr] at h
      cases hi : mergeInfos maj min with
      | error m =>
          rw [hi] at h
          cases h
          exact .inl (hinfos hi)
      | ok info =>
          rw [hi] at h
          cases h

/-- The same for an event and those that follow it in the code. -/
theorem remergeEvents_error {ev : DebugEvent} {c : Code} {msg : String}
    (h : remergeEvents ev c = .error msg) : MergeError msg := by
  unfold remergeEvents at h
  split at h
  · next ev2 c =>
      cases hm : mergeEvents ev ev2 with
      | error m =>
          rw [hm] at h
          cases h
          exact mergeEvents_error hm
      | ok ev' =>
          rw [hm] at h
          cases h
  · cases h

/-- The emitter goes through `c`; or `c` has events, and two cannot be merged. -/
def Outcome (c : Code) (e : Emitter) (r : Except String Emitter) : Prop :=
  (∃ e', r = .ok e' ∧ Emits (labelsOf c) (refsOf c) e e') ∨
    ∃ msg, r = .error msg ∧ MergeError msg ∧ 0 < eventsOf c

/-- Some instructions are written as one, and the rest follows. -/
theorem emits_fused {c c' : Code} {r : Except String Emitter} {enc : Encoding} {e : Emitter}
    (hn : (labelsOf c').Nodup) (hf : ∀ {l}, l ∈ labelsOf c' → ¬ Placed e l)
    (ih : (labelsOf c).Nodup → (∀ {l}, l ∈ labelsOf c → ¬ Placed (e.outInstr enc) l) →
      Outcome c (e.outInstr enc) r)
    (hl : labelsOf c' = labelsOf c) (hv : eventsOf c' = eventsOf c)
    (hr : refsOf c' = operandLabels enc.operands ++ refsOf c) : Outcome c' e r := by
  have h0 := outInstr_emits enc e
  rw [hl] at hn hf
  rcases ih hn fun hm hp => hf hm (((h0.placed _).mp hp).resolve_right List.not_mem_nil) with
    ⟨e', he', h'⟩ | ⟨msg, hmsg, hmerge, hev⟩
  · refine .inl ⟨e', he', ?_⟩
    rw [hl, hr]
    exact h0.trans h'
  · exact .inr ⟨msg, hmsg, hmerge, hv ▸ hev⟩

/-- An event is moved behind the instructions it stood before. -/
theorem emits_moved {c c' : Code} {r : Except String Emitter} {e : Emitter}
    (hn : (labelsOf c').Nodup) (hf : ∀ {l}, l ∈ labelsOf c' → ¬ Placed e l)
    (ih : (labelsOf c).Nodup → (∀ {l}, l ∈ labelsOf c → ¬ Placed e l) → Outcome c e r)
    (hl : labelsOf c = labelsOf c') (hr : refsOf c = refsOf c')
    (hv : 0 < eventsOf c → 0 < eventsOf c') : Outcome c' e r := by
  unfold Outcome at ih ⊢
  rw [hl, hr] at ih
  rcases ih hn hf with hok | ⟨msg, hmsg, hmerge, hev⟩
  · exact .inl hok
  · exact .inr ⟨msg, hmsg, hmerge, hv hev⟩

/-- `emit` goes through code whose labels are distinct and new, if its events can
    be merged. -/
theorem emit_emits (c : Code) (e : Emitter) (hn : (labelsOf c).Nodup)
    (hf : ∀ {l}, l ∈ labelsOf c → ¬ Placed e l) : Outcome c e (emit c e) := by
  fun_induction emit c e with
  | case1 e => exact .inl ⟨e, rfl, .of_table rfl⟩
  | case2 k cmp lbl c e hk ih =>
      obtain ⟨enc, henc, hl⟩ := branchConst_labels hk
      rw [henc]
      exact emits_fused hn hf (ih enc) rfl rfl (by rw [hl]; rfl)
  | case4 k cmp lbl c e hk ih =>
      obtain ⟨enc, henc, hl⟩ := branchConst_labels hk
      rw [henc]
      exact emits_fused hn hf (ih enc) rfl rfl (by rw [hl]; rfl)
  | case6 k lbl c e hk ih =>
      obtain ⟨enc, henc, hl⟩ := branchConst_labels hk
      rw [henc]
      exact emits_fused hn hf (ih enc) rfl rfl (by rw [hl]; rfl)
  | case8 k lbl c e hk ih =>
      obtain ⟨enc, henc, hl⟩ := branchConst_labels hk
      rw [henc]
      exact emits_fused hn hf (ih enc) rfl rfl (by rw [hl]; rfl)
  | case17 | case19 | case21 | case23 | case25 | case27 =>
      rename_i hc ih
      obtain ⟨hl, hr⟩ := remergeEvents_labels hc
      exact emits_moved hn hf ih hl hr fun _ => Nat.succ_pos _
  | case18 | case20 | case22 | case24 | case26 | case28 =>
      rename_i hc
      exact .inr ⟨_, rfl, remergeEvents_error hc, Nat.succ_pos _⟩
  | case30 i c e =>
      rename_i ih
      have hi : labelsOf (i :: c) = labelsOf [i] ++ labelsOf c := by cases i <;> rfl
      rw [hi] at hn hf
      obtain ⟨e1, he1, h1⟩ := emitInstr_emits fun hl => hf (List.mem_append_left _ hl)
      rw [he1]
      have hd := List.nodup_append.mp hn
      rcases ih e1 hd.2.1 fun hl hp => ((h1.placed _).mp hp).elim
          (hf (List.mem_append_right _ hl)) fun hl' => hd.2.2 _ hl' _ hl rfl with
        ⟨e', he', h'⟩ | ⟨msg, hmsg, hmerge, hev⟩
      · refine .inl ⟨e', he', ?_⟩
        rw [hi, refsOf_cons]
        exact h1.trans h'
      · refine .inr ⟨msg, hmsg, hmerge, ?_⟩
        cases i with
        | Kevent ev => exact Nat.succ_pos _
        | _ => exact hev
  | _ =>
      rename_i ih
      -- a constant, an access or a field in front of the rest
      first
        | exact emits_fused hn hf ih rfl rfl (by rw [pushconst_labels]; rfl)
        | exact emits_fused hn hf ih rfl rfl (by rw [pushacc_labels]; rfl)
        | exact emits_fused hn hf ih rfl rfl (by rw [pushenvacc_labels]; rfl)
        | exact emits_fused hn hf ih rfl rfl (by rw [pushoffsetclosure_labels]; rfl)
        | exact emits_fused hn hf ih rfl rfl rfl
        | exact emits_moved hn hf ih rfl rfl id

/-! ## What has been written -/

/-- What is written for a piece of code: instructions, and labels between them. -/
inductive Item where
  | label (lbl : Label)
  | instr (i : Encoding)

/-- The labels among the items. -/
def itemLabels : List Item → List Label
  | [] => []
  | .label lbl :: is => lbl :: itemLabels is
  | .instr _ :: is => itemLabels is

/-- The label operands of the items, in order. -/
def itemRefs : List Item → List Label
  | [] => []
  | .label _ :: is => itemRefs is
  | .instr i :: is => operandLabels i.operands ++ itemRefs is

/-- The operand stands at word `n`; `R` is what is known of a word that refers to a
    label, relative to an origin. -/
def OperandAt (R : Nat → Nat → Label → Prop) (e : Emitter) (n : Nat) : Operand → Prop
  | .int i => Fixed e n (BitVec.ofInt 32 i)
  | .slot info => (info, 4 * n) ∈ e.relocInfo
  | .labels lbls => ∀ j l, lbls[j]? = some l → R (n + j) (4 * n) l

/-- Operands stand at word `n`, one after the other. -/
def OperandsAt (R : Nat → Nat → Label → Prop) (e : Emitter) : Nat → List Operand → Prop
  | _, [] => True
  | n, o :: os => OperandAt R e n o ∧ OperandsAt R e (n + o.size) os

/-- The items stand at word `n`, one after the other, and end before word `m`: an
    opcode with its operands, and a label where the next instruction starts. -/
def LaidOut (R : Nat → Nat → Label → Prop) (e : Emitter) (m : Nat) : Nat → List Item → Prop
  | n, [] => n = m
  | n, .label lbl :: is => e.labelTable lbl = .Label_defined (4 * n) ∧ LaidOut R e m n is
  | n, .instr i :: is =>
      Fixed e n (wordOfBytes i.opcode 0 0 0) ∧ OperandsAt R e (n + 1) i.operands ∧
        LaidOut R e m (n + 1 + (i.operands.map Operand.size).sum) is

/-- Word `k` refers to `l`, which may still be ahead. -/
def RefersTo (e : Emitter) (k org : Nat) (l : Label) : Prop :=
  Backpatch.Refers layout e.patching k org l ∧ ∀ info, (info, 4 * k) ∉ e.relocInfo

/-- `l` is placed, and word `k` is for good the distance to it from `org`, in words. -/
def Resolved (e : Emitter) (k org : Nat) (l : Label) : Prop :=
  ∃ pos, e.labelTable l = .Label_defined pos ∧
    Fixed e k (BitVec.ofInt 32 (((pos : Int) - org) >>> (2 : Nat)))

section

variable {R R' : Nat → Nat → Label → Prop} {e e' : Emitter} {n m : Nat}

/-- Only the references of the operands themselves matter. -/
theorem OperandsAt.imp {os : List Operand}
    (hR : ∀ {k org l}, l ∈ operandLabels os → R k org l → R' k org l)
    (h : OperandsAt R e n os) : OperandsAt R' e n os := by
  induction os generalizing n with
  | nil => trivial
  | cons o os ih =>
      cases o with
      | int i => exact ⟨h.1, ih hR h.2⟩
      | slot info => exact ⟨h.1, ih hR h.2⟩
      | labels lbls =>
          constructor
          · intro j l hl
            exact hR (List.mem_append_left _ (List.mem_of_getElem? hl)) (h.1 j l hl)
          · exact ih (fun hl => hR (List.mem_append_right _ hl)) h.2

/-- More may be known of the words that refer to labels. -/
theorem LaidOut.imp {is : List Item}
    (hR : ∀ {k org l}, l ∈ itemRefs is → R k org l → R' k org l)
    (h : LaidOut R e m n is) : LaidOut R' e m n is := by
  induction is generalizing n with
  | nil => exact h
  | cons i is ih =>
      cases i with
      | label lbl => exact ⟨h.1, ih hR h.2⟩
      | instr i =>
          obtain ⟨hop, hops, hrest⟩ := h
          refine ⟨hop, hops.imp fun hl => hR (List.mem_append_left _ hl), ?_⟩
          exact ih (fun hl => hR (List.mem_append_right _ hl)) hrest

/-- A word that refers to a placed label is resolved. -/
theorem RefersTo.resolved {k org : Nat} {l : Label} (h : RefersTo e k org l)
    (hp : Placed e l) : Resolved e k org l := by
  obtain ⟨pos, hpos⟩ := hp
  have ht : e.patching.target l = .placed pos := congrArg LabelDefinition.target hpos
  refine ⟨pos, hpos, ?_, h.2⟩
  rcases h.1 with ⟨sites, hs, -⟩ | ⟨pos', hp', hset⟩
  · rw [ht] at hs
    cases hs
  · obtain rfl := Backpatch.Target.placed.inj (ht.symm.trans hp')
    exact hset

theorem RefersTo.lt_length (hv : Valid e) {k org : Nat} {l : Label} (h : RefersTo e k org l) :
    k < e.outBuffer.length := by
  rcases h.1 with hp | ⟨pos, -, hset⟩
  · exact hp.lt_length hv.sound
  · exact (List.getElem?_eq_some_iff.mp hset.1).1

theorem RefersTo.grows (hv : Valid e) (hg : e.Grows e') {k org : Nat} {l : Label}
    (h : RefersTo e k org l) : RefersTo e' k org l := by
  refine ⟨(hv.keeps hg).refers h.1, ?_⟩
  intro info hmem
  have hlt := h.lt_length hv
  rcases hg.slots hmem with hold | ⟨hle, -⟩
  · exact h.2 info hold
  · unfold Emitter.outPosition at hle
    dsimp only at hle
    omega

/-- A placed label stays where it is. -/
theorem defined_grows (hv : Valid e) (hg : e.Grows e') {l : Label} {pos : Nat}
    (h : e.labelTable l = .Label_defined pos) : e'.labelTable l = .Label_defined pos := by
  have ht : (e'.labelTable l).target = .placed pos :=
    (hv.keeps hg).placed (congrArg LabelDefinition.target h)
  cases hd : e'.labelTable l with
  | Label_defined pos' =>
      rw [hd] at ht
      rw [Backpatch.Target.placed.inj ht]
  | Label_undefined ps =>
      rw [hd] at ht
      cases ht

theorem OperandAt.grows (hv : Valid e) (hg : e.Grows e') {o : Operand}
    (h : OperandAt (RefersTo e) e n o) : OperandAt (RefersTo e') e' n o := by
  cases o with
  | int i => exact Fixed.grows hv hg h
  | slot info => exact hg.noted h
  | labels lbls => exact fun j l hl => (h j l hl).grows hv hg

theorem OperandsAt.grows (hv : Valid e) (hg : e.Grows e') {os : List Operand}
    (h : OperandsAt (RefersTo e) e n os) : OperandsAt (RefersTo e') e' n os := by
  induction os generalizing n with
  | nil => trivial
  | cons o os ih => exact ⟨h.1.grows hv hg, ih h.2⟩

/-- An operand stands where the output ended, and a label operand refers to its
    label from there. -/
theorem outOperand_at (hv : Valid e) (o : Operand) :
    OperandAt (RefersTo (e.outOperand o)) (e.outOperand o) e.outBuffer.length o := by
  cases o with
  | int i => exact outInt_fixed hv i
  | slot info => exact List.mem_cons_self ..
  | labels lbls =>
      intro j l hl
      refine ⟨outLabels_refers hv.sound _ hl, ?_⟩
      intro info hmem
      rw [Emitter.outOperand, (length_outLabels _ e lbls).2] at hmem
      have hlt := hv.slots hmem
      unfold Emitter.outPosition at hlt
      dsimp only at hlt
      omega

/-- The operands of an instruction stand one behind the other. -/
theorem outOperands_at (hv : Valid e) (os : List Operand) :
    OperandsAt (RefersTo (os.foldl Emitter.outOperand e)) (os.foldl Emitter.outOperand e)
      e.outBuffer.length os := by
  induction os generalizing e with
  | nil => trivial
  | cons o os ih =>
      have hg := (Emitter.Grows.refl e).outOperand o
      have hv1 := hv.grows hg
      have hlen : e.outBuffer.length + o.size = (e.outOperand o).outBuffer.length :=
        (length_outOperands [o] e).symm
      refine ⟨?_, hlen ▸ ih hv1⟩
      exact (outOperand_at hv o).grows hv1 ((Emitter.Grows.refl _).outOperands os)

/-- An encoding stands where it was written, whatever is written after it. -/
theorem outInstr_at (hv : Valid e) (i : Encoding) (hg : (e.outInstr i).Grows e') :
    Fixed e' e.outBuffer.length (wordOfBytes i.opcode 0 0 0) ∧
      OperandsAt (RefersTo e') e' (e.outBuffer.length + 1) i.operands := by
  have hv1 := hv.grows ((Emitter.Grows.refl e).out i.opcode)
  have hrest := (Emitter.Grows.refl (e.out i.opcode)).outOperands i.operands
  have hops := outOperands_at hv1 i.operands
  rw [length_out] at hops
  exact ⟨(out_fixed hv i.opcode).grows hv1 (hrest.trans hg), hops.grows (hv1.grows hrest) hg⟩

/-- Where a label has just been defined. -/
theorem defineLabel_here {lbl : Label} (h : e.defineLabel lbl = .ok e') :
    e'.labelTable lbl = .Label_defined (4 * e'.outBuffer.length) := by
  unfold Emitter.defineLabel at h
  split at h
  · cases h
  · obtain rfl := Except.ok.inj h
    exact if_pos rfl

/-- What `emit` writes for `c`, from word `n` on. -/
def Assembled (c : Code) (e' : Emitter) (n : Nat) : Prop :=
  ∃ is, itemLabels is = labelsOf c ∧ itemRefs is = refsOf c ∧
    LaidOut (RefersTo e') e' e'.outBuffer.length n is

/-- An instruction, and what follows it. -/
theorem Assembled.instr {c c' : Code} {i : Encoding} (hv : Valid e)
    (hg : (e.outInstr i).Grows e') (h : Assembled c e' (e.outInstr i).outBuffer.length)
    (hl : labelsOf c' = labelsOf c) (hr : refsOf c' = operandLabels i.operands ++ refsOf c) :
    Assembled c' e' e.outBuffer.length := by
  obtain ⟨is, hls, hrs, hat⟩ := h
  obtain ⟨hop, hops⟩ := outInstr_at hv i hg
  rw [length_outInstr] at hat
  exact ⟨.instr i :: is, hls.trans hl.symm, by rw [itemRefs, hrs, hr], hop, hops, hat⟩

/-- The same code, written differently. -/
theorem Assembled.same {c c' : Code} (h : Assembled c e' n) (hl : labelsOf c = labelsOf c')
    (hr : refsOf c = refsOf c') : Assembled c' e' n := by
  obtain ⟨is, hls, hrs, hat⟩ := h
  exact ⟨is, hls.trans hl, hrs.trans hr, hat⟩

/-- One instruction or label, and what follows it. -/
theorem Assembled.emitInstr {c : Code} {i : Instruction} {e1 : Emitter} (hv : Valid e)
    (h1 : e.emitInstr i = .ok e1) (hg : e1.Grows e')
    (h : Assembled c e' e1.outBuffer.length) : Assembled (i :: c) e' e.outBuffer.length := by
  unfold Emitter.emitInstr at h1
  split at h1
  · next lbl =>
      obtain ⟨is, hls, hrs, hat⟩ := h
      have hpos := (Emitter.defineLabel_kept h1).1
      unfold Emitter.outPosition at hpos
      have hlen : e.outBuffer.length = e1.outBuffer.length := by omega
      have hv1 := hv.grows ((Emitter.Grows.refl e).defineLabel h1)
      rw [hlen]
      refine ⟨.label lbl :: is, congrArg (lbl :: ·) hls, hrs, ?_, hat⟩
      exact defined_grows hv1 hg (defineLabel_here h1)
  · next hi =>
      have hlab : labelsOf (i :: c) = labelsOf c := by
        cases i with
        | Klabel lbl => exact absurd rfl (hi lbl)
        | _ => rfl
      split at h1
      · next enc henc =>
          obtain rfl := Except.ok.inj h1
          exact h.instr hv hg hlab (by rw [refsOf_cons, encoding_labels henc])
      · next henc =>
          obtain rfl := Except.ok.inj h1
          refine h.same hlab.symm ?_
          cases i with
          | Kevent ev => rfl
          | Klabel lbl => exact absurd rfl (hi lbl)
          | Kraise k => cases k <;> cases henc
          | _ => cases henc

/-- What `emit` writes is a sequence of instructions and labels, those of the code. -/
theorem emit_assembled {c : Code} (hv : Valid e) (h : emit c e = .ok e') :
    Assembled c e' e.outBuffer.length := by
  -- an instruction is written, and then the others
  have hstep : ∀ {e : Emitter} {enc : Encoding} {rem c : Code}, Valid e →
      emit rem (e.outInstr enc) = .ok e' →
      (Valid (e.outInstr enc) → emit rem (e.outInstr enc) = .ok e' →
        Assembled rem e' (e.outInstr enc).outBuffer.length) →
      labelsOf c = labelsOf rem → refsOf c = operandLabels enc.operands ++ refsOf rem →
      Assembled c e' e.outBuffer.length := by
    intro e enc rem c hv h hrest hl hr
    have hv1 := hv.grows ((Emitter.Grows.refl e).outInstr enc)
    exact (hrest hv1 h).instr hv (emit_grows h) hl hr
  fun_induction emit c e with
  | case1 e =>
      obtain rfl := Except.ok.inj h
      exact ⟨[], rfl, rfl, rfl⟩
  | case2 | case4 | case6 | case8 =>
      rename_i hk ih
      obtain ⟨enc, henc, hl⟩ := branchConst_labels hk
      rw [henc] at h
      exact hstep hv h (ih enc) rfl (by rw [hl]; rfl)
  | case17 | case19 | case21 | case23 | case25 | case27 =>
      rename_i hc ih
      obtain ⟨hl, hr⟩ := remergeEvents_labels hc
      exact (ih hv h).same hl hr
  | case18 | case20 | case22 | case24 | case26 | case28 => cases h
  | case30 =>
      rename_i ih
      obtain ⟨e1, he1, h⟩ := bind_ok h
      have hv1 := hv.grows (Emitter.emitInstr_grows he1)
      exact (ih e1 hv1 h).emitInstr hv he1 (emit_grows h)
  | _ =>
      rename_i ih
      -- a constant, an access or a field in front of the rest
      first
        | exact hstep hv h ih rfl (by rw [pushconst_labels]; rfl)
        | exact hstep hv h ih rfl (by rw [pushacc_labels]; rfl)
        | exact hstep hv h ih rfl (by rw [pushenvacc_labels]; rfl)
        | exact hstep hv h ih rfl (by rw [pushoffsetclosure_labels]; rfl)
        | exact hstep hv h ih rfl rfl
        | exact (ih hv h).same rfl rfl

theorem LaidOut.grows (hv : Valid e) (hg : e.Grows e') {is : List Item}
    (h : LaidOut (RefersTo e) e m n is) : LaidOut (RefersTo e') e' m n is := by
  induction is generalizing n with
  | nil => exact h
  | cons i is ih =>
      cases i with
      | label lbl => exact ⟨defined_grows hv hg h.1, ih h.2⟩
      | instr i => exact ⟨h.1.grows hv hg, h.2.1.grows hv hg, ih h.2.2⟩

theorem LaidOut.append {k : Nat} {is js : List Item} (h : LaidOut R e m n is)
    (h' : LaidOut R e k m js) : LaidOut R e k n (is ++ js) := by
  induction is generalizing n with
  | nil =>
      obtain rfl := h
      exact h'
  | cons i is ih =>
      cases i with
      | label lbl => exact ⟨h.1, ih h.2⟩
      | instr i => exact ⟨h.1, h.2.1, ih h.2.2⟩

theorem itemLabels_append (is js : List Item) :
    itemLabels (is ++ js) = itemLabels is ++ itemLabels js := by
  induction is with
  | nil => rfl
  | cons i is ih =>
      cases i with
      | label lbl => exact congrArg (lbl :: ·) ih
      | instr i => exact ih

theorem itemRefs_append (is js : List Item) :
    itemRefs (is ++ js) = itemRefs is ++ itemRefs js := by
  induction is with
  | nil => rfl
  | cons i is ih =>
      cases i with
      | label lbl => exact ih
      | instr i => rw [List.cons_append, itemRefs, ih, itemRefs, List.append_assoc]

end

/-! ## Linked code -/

/-- No label is placed twice, and every label referred to is placed. -/
structure Linked (c : Code) : Prop where
  nodup : (labelsOf c).Nodup
  placed : ∀ {l}, l ∈ refsOf c → l ∈ labelsOf c

/-- The emitter has written `c`, whose references may be open. -/
structure Written (c : Code) (e : Emitter) : Prop where
  valid : Valid e
  placed : ∀ l, Placed e l ↔ l ∈ labelsOf c
  opened : ∀ {l}, Open e l → l ∈ refsOf c
  assembled : Assembled c e 0

/-- The emitter has written `c`, and nothing is left open: a label is defined where
    the next instruction starts, and every label operand holds the distance to its
    label. -/
structure Resolves (c : Code) (e : Emitter) : Prop where
  placed : ∀ l, Placed e l ↔ l ∈ labelsOf c
  closed : ∀ l, ¬ Open e l
  laid : ∃ is, itemLabels is = labelsOf c ∧ itemRefs is = refsOf c ∧
    LaidOut (Resolved e) e e.outBuffer.length 0 is

section

variable {a b c : Code} {e : Emitter}

theorem written_init : Written [] init where
  valid := init_valid
  placed := fun _ => iff_of_false init_not_placed List.not_mem_nil
  opened := fun h => absurd h init_not_open
  assembled := ⟨[], rfl, rfl, rfl⟩

/-- More code is written behind, unless two of its events cannot be merged. -/
theorem Written.emit (h : Written a e) (hn : (labelsOf (a ++ b)).Nodup) :
    (∃ e', emit b e = .ok e' ∧ Written (a ++ b) e') ∨
      ∃ msg, emit b e = .error msg ∧ MergeError msg ∧ 0 < eventsOf b := by
  rw [labelsOf_append, List.nodup_append] at hn
  obtain ⟨-, hb, hab⟩ := hn
  rcases emit_emits b e hb fun hl hp => hab _ ((h.placed _).mp hp) _ hl rfl with
    ⟨e', he, hem⟩ | herr
  · have hg := emit_grows he
    obtain ⟨is, hls, hrs, hat⟩ := h.assembled
    obtain ⟨js, hls', hrs', hat'⟩ := emit_assembled h.valid he
    refine .inl ⟨e', he, h.valid.grows hg, ?_, ?_, is ++ js, ?_, ?_, ?_⟩
    · intro l
      rw [hem.placed, h.placed, labelsOf_append, List.mem_append]
    · intro l ho
      rw [refsOf_append, List.mem_append]
      exact (hem.opened ho).imp_left h.opened
    · rw [itemLabels_append, hls, hls', labelsOf_append]
    · rw [itemRefs_append, hrs, hrs', refsOf_append]
    · exact (hat.grows h.valid hg).append hat'
  · exact .inr herr

/-- Once all labels are placed, all references are resolved. -/
theorem Written.resolves (h : Written c e) (hl : Linked c) : Resolves c e where
  placed := h.placed
  closed := fun l ho => ho.not_placed ((h.placed l).mpr (hl.placed (h.opened ho)))
  laid := by
    obtain ⟨is, hls, hrs, hat⟩ := h.assembled
    refine ⟨is, hls, hrs, hat.imp ?_⟩
    intro k org l hmem href
    rw [hrs] at hmem
    exact href.resolved ((h.placed l).mpr (hl.placed hmem))

/-- Linked code is emitted with all its references resolved, unless two of its
    events cannot be merged. -/
theorem Linked.emitted (h : Linked c) :
    (∃ e, CamlEmit.emit c init = .ok e ∧ Resolves c e) ∨
      ∃ msg, CamlEmit.emit c init = .error msg ∧ MergeError msg ∧ 0 < eventsOf c := by
  rcases written_init.emit h.nodup with ⟨e, he, hw⟩ | herr
  · exact .inl ⟨e, he, hw.resolves h⟩
  · exact .inr herr

end

end CamlAssembly
