import CamlInterp.LoadProofs
import CamlInterp.ThreadProofs

/-! # Threading what was loaded

    `emit` writes whole instructions, the fused ones included, and neither labels
    nor the linker change where they end.  So `caml_thread_code` goes through the
    code of a whole program from instruction to instruction, up to the end. -/

namespace CamlThreadLoad

open CamlOpcode CamlAdvance CamlEmit CamlThread
open CamlValue CamlSections CamlStrip CamlLoad

/-! ## The fused instructions -/

theorem fits_pushacc {n : Int} (h : 0 ≤ n) : Fits (pushaccEncoding n) := by
  unfold pushaccEncoding
  split
  · next hn => exact fits_offset (k := 8) (by decide) rfl h hn
  · exact fits_of .PUSHACC rfl fun _ => rfl

theorem fits_pushenvacc (n : Int) : Fits (pushenvaccEncoding n) := by
  unfold pushenvaccEncoding
  split
  · next hn => exact fits_offset_one (k := 4) (by decide) rfl hn.1 (by omega)
  · exact fits_of .PUSHENVACC rfl fun _ => rfl

theorem fits_pushoffsetclosure (ofs : Int) : Fits (pushoffsetclosureEncoding ofs) := by
  unfold pushoffsetclosureEncoding
  split
  · next h =>
      exact @fits_offsetclosure .PUSHOFFSETCLOSUREM3 _ .PUSHOFFSETCLOSURE3 ⟨rfl, fun _ => rfl⟩
        (fun _ => rfl) ⟨rfl, fun _ => rfl⟩ _ h
  · exact fits_of .PUSHOFFSETCLOSURE rfl fun _ => rfl

theorem fits_pushconst (sc : StructuredConstant) : Fits (pushconstEncoding sc) :=
  fits_constEncoding (by decide) (fun _ => rfl) (fun _ => rfl) (fun _ => rfl) (fun _ => rfl) sc

/-- A test and a branch have a constant and a label. -/
theorem fits_branchConst {op : Opcode} {k : StructuredConstant} {lbl : Label} {i : Encoding}
    (hop : ∀ w, 2 = width op w) (h : branchConstEncoding op k lbl = .ok i) : Fits i := by
  unfold branchConstEncoding at h
  split at h
  · obtain rfl := Except.ok.inj h
    exact fits_of op rfl hop
  · cases h

theorem width_branchComp (c : IntegerComparison) (w : OpcodeWord) : 2 = width (branchComp c) w := by
  cases c with
  | Ceq => rfl
  | Cne => rfl
  | Clt => rfl
  | Cle => rfl
  | Cgt => rfl
  | Cge => rfl

/-! ## Cuts -/

/-- Between two positions there are whole instructions. -/
def Cut (words : List OpcodeWord) (n m : Nat) : Prop :=
  ∃ chunks : List (List OpcodeWord), (∀ ws ∈ chunks, ∃ op ops, Whole op ops ws) ∧
    words.take m = words.take n ++ chunks.flatten

/-- The words agree with all that is settled in the buffer. -/
def Agrees (e : Emitter) (words : List OpcodeWord) : Prop :=
  e.outBuffer.length ≤ words.length ∧ ∀ k w, Fixed e k w → words[k]? = some w

/-- An instruction with arguments of the right kind, and tables that are not too long. -/
def Sane (instr : Instruction) : Prop := Proper instr ∧ Bounded instr

variable {words : List OpcodeWord} {n m : Nat} {e e' : Emitter}

theorem Cut.refl (words : List OpcodeWord) (n : Nat) : Cut words n n :=
  ⟨[], by simp, (List.append_nil _).symm⟩

theorem Cut.trans {k : Nat} (h : Cut words n m) (h' : Cut words m k) : Cut words n k := by
  obtain ⟨c, hc, hcut⟩ := h
  obtain ⟨c', hc', hcut'⟩ := h'
  refine ⟨c ++ c', ?_, ?_⟩
  · intro ws hws
    rcases List.mem_append.mp hws with hws | hws
    · exact hc ws hws
    · exact hc' ws hws
  · rw [hcut', hcut, List.flatten_append, List.append_assoc]

theorem Agrees.earlier (h : Agrees e' words) (hv : Valid e) (hg : e.Grows e') :
    Agrees e words := by
  have hpos := hg.position
  unfold Emitter.outPosition at hpos
  exact ⟨by have := h.1; omega, fun k w hf => h.2 k w (hf.grows hv hg)⟩

/-- What is written for an encoding is a whole instruction. -/
theorem cut_outInstr {i : Encoding} (hv : Valid e) (hf : Fits i)
    (h : Agrees (e.outInstr i) words) :
    Cut words e.outBuffer.length (e.outInstr i).outBuffer.length := by
  obtain ⟨hle, hfixed⟩ := h
  have hlen := length_outInstr e i
  have hws : ((words.drop e.outBuffer.length).take
      (1 + (i.operands.map Operand.size).sum)).length = 1 + (i.operands.map Operand.size).sum := by
    rw [List.length_take, List.length_drop]
    omega
  have hwhole := outInstr_whole hv hf hws fun k w hk => by
    have hlt := hk.lt_length
    rw [List.getElem?_take, if_pos (by omega), List.getElem?_drop]
    exact hfixed _ w hk
  refine ⟨[_], by simpa using hwhole, ?_⟩
  rw [List.flatten_singleton, hlen, Nat.add_assoc, List.take_add]

/-- What one instruction writes is one whole instruction, or nothing. -/
theorem cut_emitInstr {instr : Instruction} (hv : Valid e) (hs : Sane instr)
    (h : e.emitInstr instr = .ok e') (ha : Agrees e' words) :
    Cut words e.outBuffer.length e'.outBuffer.length := by
  unfold Emitter.emitInstr at h
  split at h
  · -- a label writes nothing
    have hpos := (Emitter.defineLabel_kept h).1
    unfold Emitter.outPosition at hpos
    rw [show e'.outBuffer.length = e.outBuffer.length by omega]
    exact Cut.refl ..
  · split at h
    · next i hi =>
        obtain rfl := Except.ok.inj h
        exact cut_outInstr hv (encoding_fits hs.1 hs.2 hi) ha
    · obtain rfl := Except.ok.inj h
      exact Cut.refl ..

/-- Moving an event leaves the instructions. -/
theorem sane_remergeEvents {ev : DebugEvent} {c c' : List Instruction}
    (hc : remergeEvents ev c = .ok c') (h : ∀ instr ∈ c, Sane instr) :
    ∀ instr ∈ c', Sane instr := by
  obtain ⟨ev', rfl | ⟨ev2, c1, rfl, rfl⟩⟩ := remergeEvents_cons hc
  · intro instr hmem
    rcases List.mem_cons.mp hmem with rfl | hmem
    · exact ⟨trivial, trivial⟩
    · exact h instr hmem
  · intro instr hmem
    rcases List.mem_cons.mp hmem with rfl | hmem
    · exact ⟨trivial, trivial⟩
    · exact h instr (List.mem_cons_of_mem _ hmem)

/-- `emit` writes whole instructions. -/
theorem emit_cut {code : List Instruction} (hv : Valid e) (hs : ∀ instr ∈ code, Sane instr)
    (h : emit code e = .ok e') (ha : Agrees e' words) :
    Cut words e.outBuffer.length e'.outBuffer.length := by
  -- an instruction is written, and then the others
  have hstep : ∀ {e : Emitter} {i : Encoding} {rem : List Instruction}, Valid e → Fits i →
      emit rem (e.outInstr i) = .ok e' →
      (Valid (e.outInstr i) → emit rem (e.outInstr i) = .ok e' →
        Cut words (e.outInstr i).outBuffer.length e'.outBuffer.length) →
      Cut words e.outBuffer.length e'.outBuffer.length := by
    intro e i rem hv hf h hrest
    have hv' := hv.grows ((Emitter.Grows.refl e).outInstr i)
    exact (cut_outInstr hv hf (ha.earlier hv' (emit_grows h))).trans (hrest hv' h)
  fun_induction emit code e with
  | case1 e =>
      obtain rfl := Except.ok.inj h
      exact Cut.refl ..
  | case2 | case4 =>
      rename_i ih
      obtain ⟨i, hi, h⟩ := bind_ok h
      simp only [List.forall_mem_cons] at hs
      exact hstep hv (fits_branchConst (width_branchComp _) hi) h fun hv' h =>
        ih i hv' hs.2.2.2.2 h
  | case6 | case8 =>
      rename_i ih
      obtain ⟨i, hi, h⟩ := bind_ok h
      simp only [List.forall_mem_cons] at hs
      exact hstep hv (fits_branchConst (fun _ => rfl) hi) h fun hv' h => ih i hv' hs.2.2.2.2 h
  | case3 | case5 | case7 | case9 =>
      rename_i ih
      rw [List.forall_mem_cons, List.forall_mem_cons] at hs
      exact hstep hv (fits_pushconst _) h fun hv' h => ih hv' hs.2.2 h
  | case10 =>
      rename_i ih
      refine ih hv ?_ h
      simp only [List.forall_mem_cons] at hs ⊢
      exact ⟨⟨trivial, trivial⟩, hs.2.2.2⟩
  | case11 =>
      rename_i ih
      simp only [List.forall_mem_cons] at hs
      exact hstep hv (fits_pushacc hs.2.1.1) h fun hv' h => ih hv' hs.2.2 h
  | case12 =>
      rename_i ih
      simp only [List.forall_mem_cons] at hs
      exact hstep hv (fits_pushenvacc _) h fun hv' h => ih hv' hs.2.2 h
  | case13 =>
      rename_i ih
      simp only [List.forall_mem_cons] at hs
      exact hstep hv (fits_pushoffsetclosure _) h fun hv' h => ih hv' hs.2.2 h
  | case14 =>
      rename_i ih
      simp only [List.forall_mem_cons] at hs
      exact hstep hv (fits_of .PUSHGETGLOBALFIELD rfl fun _ => rfl) h fun hv' h =>
        ih hv' hs.2.2.2 h
  | case15 =>
      rename_i ih
      simp only [List.forall_mem_cons] at hs
      exact hstep hv (fits_of .PUSHGETGLOBAL rfl fun _ => rfl) h fun hv' h => ih hv' hs.2.2 h
  | case16 =>
      rename_i ih
      simp only [List.forall_mem_cons] at hs
      exact hstep hv (fits_pushconst _) h fun hv' h => ih hv' hs.2.2 h
  | case17 =>
      -- an event moves behind the fused instruction
      rename_i hc ih
      refine ih hv ?_ h
      simp only [List.forall_mem_cons] at hs ⊢
      exact ⟨hs.1, hs.2.2.1, hs.2.2.2.1, sane_remergeEvents hc hs.2.2.2.2⟩
  | case19 | case21 | case23 | case25 | case27 =>
      rename_i hc ih
      refine ih hv ?_ h
      simp only [List.forall_mem_cons] at hs ⊢
      exact ⟨hs.1, hs.2.2.1, sane_remergeEvents hc hs.2.2.2⟩
  | case18 | case20 | case22 | case24 | case26 | case28 => cases h
  | case29 =>
      rename_i ih
      simp only [List.forall_mem_cons] at hs
      exact hstep hv (fits_of .GETGLOBALFIELD rfl fun _ => rfl) h fun hv' h => ih hv' hs.2.2 h
  | case30 =>
      rename_i ih
      obtain ⟨e1, he1, h⟩ := bind_ok h
      rw [List.forall_mem_cons] at hs
      have hg := Emitter.emitInstr_grows he1
      have hv1 := hv.grows hg
      exact (cut_emitInstr hv hs.1 he1 (ha.earlier hv1 (emit_grows h))).trans
        (ih e1 hv1 hs.2 h)

/-! ## A program -/

/-- The linker leaves alone what is settled. -/
theorem words_agree (u : CompUnit) : Agrees u.emitter u.words := by
  refine ⟨Nat.le_of_eq (length_patchWords ..).symm, ?_⟩
  intro k w hf
  rw [words_other u hf.noSlot]
  exact hf.settled.1

/-- The words of a unit are whole instructions. -/
theorem unit_chunks (u : CompUnit) (hs : ∀ instr ∈ u.code, Sane instr) :
    ∃ chunks : List (List OpcodeWord), (∀ ws ∈ chunks, ∃ op ops, Whole op ops ws) ∧
      u.words = chunks.flatten := by
  obtain ⟨chunks, hc, hcut⟩ := emit_cut init_valid hs u.emitted (words_agree u)
  refine ⟨chunks, hc, ?_⟩
  have hlen : u.words.length = u.emitter.outBuffer.length := length_patchWords ..
  rw [← hlen, List.take_length] at hcut
  exact hcut

/-- The code of units is a sequence of whole instructions. -/
theorem units_chunks (us : List CompUnit) (hs : ∀ u ∈ us, ∀ instr ∈ u.code, Sane instr) :
    ∃ chunks : List (List OpcodeWord), (∀ ws ∈ chunks, ∃ op ops, Whole op ops ws) ∧
      chunks.flatten = us.flatMap CompUnit.words ++ [Opcode.STOP.code] := by
  induction us with
  | nil =>
      refine ⟨[[Opcode.STOP.code]], ?_, rfl⟩
      intro ws hws
      rw [List.mem_singleton.mp hws]
      exact ⟨.STOP, [], rfl, rfl⟩
  | cons u us ih =>
      rw [List.forall_mem_cons] at hs
      obtain ⟨chunks, hc, hwords⟩ := unit_chunks u hs.1
      obtain ⟨rest, hr, hrest⟩ := ih hs.2
      refine ⟨chunks ++ rest, ?_, ?_⟩
      · intro ws hws
        rcases List.mem_append.mp hws with hws | hws
        · exact hc ws hws
        · exact hr ws hws
      · rw [List.flatten_append, hrest, ← hwords, List.flatMap_cons, List.append_assoc]

/-- `caml_thread_code` replaces the first word of each and nothing else. -/
theorem thread_chunks (instrTable : Opcode → OpcodeWord) {chunks : List (List OpcodeWord)}
    (h : ∀ ws ∈ chunks, ∃ op ops, Whole op ops ws) :
    camlThreadCode instrTable chunks.flatten =
      .ok (chunks.map (threaded instrTable)).flatten := by
  obtain ⟨fuel, hle, hloop⟩ := threadLoop_passes instrTable (fun ws hws => .inr (h ws hws))
    (Nat.lt_succ_self chunks.flatten.length) [] []
  rw [List.nil_append, List.append_nil, List.nil_append, List.append_nil] at hloop
  unfold camlThreadCode
  exact hloop.trans (threadLoop_end (by omega) _)

/-- The code of a linked program whose sections fit the format is a sequence of whole
    instructions, with a final `STOP`.  When it has been loaded, `caml_thread_code` goes
    through all of it, replaces the opcodes and changes no operand. -/
theorem loaded_code_threads {x : Program} {us : List CompUnit} (hx : x.code = us.map linkCompunit)
    (hfits : x.Fits) (hsane : ∀ u ∈ us, ∀ instr ∈ u.code, Sane instr) (instrTable : Opcode → OpcodeWord)
    (s : Channels) :
    ∃ s' trail trail', ∃ chunks : List (List OpcodeWord),
      link (linkBytecode x) s = .ok ((), s') ∧
      readTrailer s'.output = .ok trail ∧ readSectionDescriptors s'.output trail = .ok trail' ∧
      (∀ ws ∈ chunks, ∃ op ops, Whole op ops ws) ∧
      chunks.flatten = us.flatMap CompUnit.words ++ [Opcode.STOP.code] ∧
      ∀ pos, camlLoadCode s'.output pos trail' = .ok chunks.flatten ∧
        camlThreadCode instrTable chunks.flatten =
          .ok (chunks.map (threaded instrTable)).flatten := by
  obtain ⟨s', trail, trail', hlink, htrail, hdesc, hload⟩ := linked_loads hx hfits s
  obtain ⟨chunks, hchunks, hwords⟩ := units_chunks us hsane
  refine ⟨s', trail, trail', chunks, hlink, htrail, hdesc, hchunks, hwords, ?_⟩
  intro pos
  rw [hload pos, ← hwords]
  exact ⟨rfl, thread_chunks instrTable hchunks⟩

/-- A unit that gets one global: `GETGLOBAL`, its slot, and `STOP`. -/
theorem loaded_code_threads_getglobal :
    ∃ s' trail', ∃ chunks : List (List OpcodeWord),
      link (linkBytecode ⟨none, [linkCompunit getglobalUnit], none, [], [], [], [], none⟩)
        ⟨[], 0, [0x23], [], 0⟩ = .ok ((), s') ∧
      chunks.flatten = [Opcode.GETGLOBAL.code, 7#32, Opcode.STOP.code] ∧
      camlLoadCode s'.output 0 trail' = .ok chunks.flatten ∧
      camlThreadCode (fun op => op.code + 1000) chunks.flatten =
        .ok (chunks.map (threaded fun op => op.code + 1000)).flatten := by
  obtain ⟨s', trail, trail', chunks, hlink, -, -, -, hwords, hload⟩ :=
    @loaded_code_threads ⟨none, [linkCompunit getglobalUnit], none, [], [], [], [], none⟩
      [getglobalUnit] rfl (by unfold Program.Fits; decide) (by
        intro u hu instr hinstr
        rw [List.mem_singleton.mp hu] at hinstr
        rw [List.mem_singleton.mp hinstr]
        exact ⟨trivial, trivial⟩)
      (fun op => op.code + 1000) ⟨[], 0, [0x23], [], 0⟩
  exact ⟨s', trail', chunks, hlink, hwords, hload 0⟩

end CamlThreadLoad
