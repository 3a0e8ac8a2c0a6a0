import CamlInterp.StripProofs
import CamlInterp.EmitProofs

/-! # Loading — `bytelink.ml` and `fix_code.c`

    The emitter writes words into a buffer of bytes, the linker puts numbers into
    the slots for globals, literals and primitives, and the runtime system reads
    the bytes of all units back as words.  The code in memory is what was
    emitted, but for the slots. -/

namespace CamlLoad

open CamlValue CamlOpcode CamlEmit CamlSections CamlStrip

/-! ## Words and bytes -/

/-- The word of four bytes, the first one lowest; where the processor has them
    the other way round, `caml_fixup_endianness` turns them. -/
def wordOf (b1 b2 b3 b4 : Byte) : OpcodeWord := b4 ++ b3 ++ b2 ++ b1

/-- The bytes of a word in `out_buffer`. -/
def bytesOfWord (w : OpcodeWord) : Bytes :=
  [w.extractLsb' 0 8, w.extractLsb' 8 8, w.extractLsb' 16 8, w.extractLsb' 24 8]

/-- The bytes of `out_buffer`. -/
def bytesOf (ws : List OpcodeWord) : Bytes := ws.flatMap bytesOfWord

/-- The words at `caml_start_code`. -/
def wordsIn : Bytes → List OpcodeWord
  | b1 :: b2 :: b3 :: b4 :: bs => wordOf b1 b2 b3 b4 :: wordsIn bs
  | _ => []

/-- `out_word` writes the four bytes. -/
theorem bytesOfWord_wordOf (b1 b2 b3 b4 : Byte) :
    bytesOfWord (wordOf b1 b2 b3 b4) = [b1, b2, b3, b4] := by
  have h1 := b1.isLt
  have h2 := b2.isLt
  have h3 := b3.isLt
  have h4 := b4.isLt
  have hw : (wordOf b1 b2 b3 b4).toNat =
      ((b4.toNat * 2 ^ 8 + b3.toNat) * 2 ^ 8 + b2.toNat) * 2 ^ 8 + b1.toNat := by
    unfold wordOf
    simp only [BitVec.toNat_append]
    rw [← Nat.shiftLeft_add_eq_or_of_lt h3, ← Nat.shiftLeft_add_eq_or_of_lt h2,
      ← Nat.shiftLeft_add_eq_or_of_lt h1, Nat.shiftLeft_eq, Nat.shiftLeft_eq, Nat.shiftLeft_eq]
  have hbyte : ∀ (k : Nat) (b : Byte), (wordOf b1 b2 b3 b4).toNat / 2 ^ k % 2 ^ 8 = b.toNat →
      (wordOf b1 b2 b3 b4).extractLsb' k 8 = b := by
    intro k b h
    apply BitVec.eq_of_toNat_eq
    rw [BitVec.extractLsb'_toNat, Nat.shiftRight_eq_div_pow]
    exact h
  unfold bytesOfWord
  rw [hbyte 0 b1 (by rw [hw]; omega), hbyte 8 b2 (by rw [hw]; omega),
    hbyte 16 b3 (by rw [hw]; omega), hbyte 24 b4 (by rw [hw]; omega)]

/-- A word is put together from its four bytes. -/
theorem wordOf_bytes (w : OpcodeWord) :
    wordOf (w.extractLsb' 0 8) (w.extractLsb' 8 8) (w.extractLsb' 16 8) (w.extractLsb' 24 8) =
      w := by
  have hw := w.isLt
  apply BitVec.eq_of_toNat_eq
  unfold wordOf
  simp only [BitVec.toNat_append]
  rw [← Nat.shiftLeft_add_eq_or_of_lt (BitVec.isLt _),
    ← Nat.shiftLeft_add_eq_or_of_lt (BitVec.isLt _),
    ← Nat.shiftLeft_add_eq_or_of_lt (BitVec.isLt _)]
  simp only [Nat.shiftLeft_eq, BitVec.extractLsb'_toNat, Nat.shiftRight_eq_div_pow]
  omega

theorem bytesOf_cons (w : OpcodeWord) (ws : List OpcodeWord) :
    bytesOf (w :: ws) = bytesOfWord w ++ bytesOf ws := List.flatMap_cons

theorem wordsIn_bytesOf (ws : List OpcodeWord) : wordsIn (bytesOf ws) = ws := by
  induction ws with
  | nil => rfl
  | cons w ws ih =>
      show wordOf _ _ _ _ :: wordsIn (bytesOf ws) = _
      rw [wordOf_bytes, ih]

/-! ## The linker -/

/-- `patch_int`; every slot is a word of the buffer. -/
def patchInt (buff : Bytes) (pos : Nat) (n : Int) : Bytes :=
  (((buff.set pos (BitVec.ofInt 8 n)).set (pos + 1) (BitVec.ofInt 8 (n >>> (8 : Nat)))).set
    (pos + 2) (BitVec.ofInt 8 (n >>> (16 : Nat)))).set (pos + 3) (BitVec.ofInt 8 (n >>> (24 : Nat)))

/-- `patch_object`; `slot` is the number that `Symtable` gives for an entry. -/
def patchObject (slot : RelocInfo × Nat → Int) (buff : Bytes)
    (patchlist : List (RelocInfo × Nat)) : Bytes :=
  patchlist.foldl (fun buff p => patchInt buff p.2 (slot p)) buff

/-- A compilation unit, and the numbers for its slots. -/
structure CompUnit where
  code : List Instruction
  emitter : Emitter
  emitted : emit code init = .ok emitter
  slot : RelocInfo × Nat → Int

/-- `link_compunit`; `cu_reloc` has the slots from the first one on. -/
def linkCompunit (u : CompUnit) : Bytes :=
  patchObject u.slot (bytesOf u.emitter.outBuffer) u.emitter.relocInfo.reverse

/-- `patch_object` on words. -/
def patchWords (slot : RelocInfo × Nat → Int) (ws : List OpcodeWord)
    (patchlist : List (RelocInfo × Nat)) : List OpcodeWord :=
  patchlist.foldl (fun ws p => ws.set (p.2 / 4) (BitVec.ofInt 32 (slot p))) ws

/-- The words of a unit, with its slots filled. -/
def CompUnit.words (u : CompUnit) : List OpcodeWord :=
  patchWords u.slot u.emitter.outBuffer u.emitter.relocInfo.reverse

/-! ## The runtime system -/

/-- `caml_load_code` for the section that `caml_seek_section` finds, up to
    `caml_thread_code`. -/
def camlLoadCode (file : Bytes) (pos : Nat) (trail : ExecTrailer) :
    Except LoadError (List OpcodeWord) :=
  let (len, pos) := seekOptionalSection file pos trail CODE
  if len < 0 then .error .fatal
  else if file.length < pos + len.toNat then .error .fatal
  else .ok (wordsIn ((file.drop pos).take len.toNat))

theorem camlLoadCode_run {ss : List Sec} {d : Bytes} (pre : Bytes) (h : Storable ss)
    (hd : lastNamed CODE ss = some d) (pos : Nat) :
    camlLoadCode (executable pre ss) pos (trailerOf ss) = .ok (wordsIn d) := by
  obtain ⟨a, c, hin, hseek⟩ := (seekOptionalSection_run pre h rfl pos).2 d hd
  have hlen : (executable pre ss).length = a.length + (d.length + c.length) := by
    rw [hin, List.length_append, List.length_append]
  unfold camlLoadCode
  rw [hseek]
  dsimp only
  rw [if_neg (by omega), if_neg (by omega), hin, List.drop_left, Int.toNat_natCast, List.take_left]

/-! ## Slots -/

/-- A slot is patched as a word. -/
theorem patchInt_words (ws : List OpcodeWord) (k : Nat) (n : Int) :
    patchInt (bytesOf ws) (4 * k) n = bytesOf (ws.set k (BitVec.ofInt 32 n)) := by
  induction ws generalizing k with
  | nil => rfl
  | cons w ws ih =>
      cases k with
      | zero =>
          have hbytes : bytesOfWord (BitVec.ofInt 32 n) = [BitVec.ofInt 8 n,
              BitVec.ofInt 8 (n >>> (8 : Nat)), BitVec.ofInt 8 (n >>> (16 : Nat)),
              BitVec.ofInt 8 (n >>> (24 : Nat))] := by
            rw [← wordOfBytes_int]
            exact bytesOfWord_wordOf ..
          rw [List.set_cons_zero, bytesOf_cons, bytesOf_cons, hbytes]
          rfl
      | succ k =>
          rw [List.set_cons_succ, bytesOf_cons, bytesOf_cons, ← ih]
          rfl

theorem patchObject_words (slot : RelocInfo × Nat → Int) (ws : List OpcodeWord)
    {patchlist : List (RelocInfo × Nat)} (h : ∀ p ∈ patchlist, 4 ∣ p.2) :
    patchObject slot (bytesOf ws) patchlist = bytesOf (patchWords slot ws patchlist) := by
  induction patchlist generalizing ws with
  | nil => rfl
  | cons p patchlist ih =>
      have hp := h p (List.mem_cons_self ..)
      have hpos : p.2 = 4 * (p.2 / 4) := (Nat.mul_div_cancel' hp).symm
      show patchObject slot (patchInt (bytesOf ws) p.2 (slot p)) patchlist = _
      rw [hpos, patchInt_words]
      exact ih _ fun q hq => h q (List.mem_cons_of_mem _ hq)

theorem length_patchWords (slot : RelocInfo × Nat → Int) (ws : List OpcodeWord)
    (patchlist : List (RelocInfo × Nat)) :
    (patchWords slot ws patchlist).length = ws.length := by
  induction patchlist generalizing ws with
  | nil => rfl
  | cons p patchlist ih => exact (ih _).trans List.length_set

theorem patchWords_other (slot : RelocInfo × Nat → Int) (ws : List OpcodeWord)
    {patchlist : List (RelocInfo × Nat)} {k : Nat} (h : ∀ p ∈ patchlist, p.2 / 4 ≠ k) :
    (patchWords slot ws patchlist)[k]? = ws[k]? := by
  induction patchlist generalizing ws with
  | nil => rfl
  | cons p patchlist ih =>
      have hp := h p (List.mem_cons_self ..)
      exact (ih _ fun q hq => h q (List.mem_cons_of_mem _ hq)).trans (List.getElem?_set_ne hp)

/-- A slot holds a number given for it. -/
theorem patchWords_slot (slot : RelocInfo × Nat → Int) (ws : List OpcodeWord)
    {patchlist : List (RelocInfo × Nat)} {p : RelocInfo × Nat} (hp : p ∈ patchlist)
    (hlt : p.2 / 4 < ws.length) :
    ∃ q ∈ patchlist, q.2 / 4 = p.2 / 4 ∧
      (patchWords slot ws patchlist)[p.2 / 4]? = some (BitVec.ofInt 32 (slot q)) := by
  induction patchlist using List.reverseRecOn with
  | nil => cases hp
  | append_singleton patchlist q ih =>
      have hfold : patchWords slot ws (patchlist ++ [q]) =
          (patchWords slot ws patchlist).set (q.2 / 4) (BitVec.ofInt 32 (slot q)) := by
        unfold patchWords
        rw [List.foldl_append]
        rfl
      have hlen := length_patchWords slot ws patchlist
      by_cases hq : q.2 / 4 = p.2 / 4
      · refine ⟨q, List.mem_append_right _ (List.mem_singleton.mpr rfl), hq, ?_⟩
        rw [hfold, hq, List.getElem?_set_self (by rw [hlen]; exact hlt)]
      · have hold : p ∈ patchlist := by
          rcases List.mem_append.mp hp with hold | hnew
          · exact hold
          · exact absurd (congrArg (·.2 / 4) (List.mem_singleton.mp hnew)).symm hq
        obtain ⟨r, hr, hpos, hword⟩ := ih hold
        refine ⟨r, List.mem_append_left _ hr, hpos, ?_⟩
        rw [hfold, List.getElem?_set_ne hq, hword]

/-- Every slot noted by the emitter is a word. -/
def Aligned (e : Emitter) : Prop := ∀ p ∈ e.relocInfo, 4 ∣ p.2

variable {e e' : Emitter}

theorem Aligned.of_eq (h : Aligned e) (hr : e'.relocInfo = e.relocInfo) : Aligned e' := by
  intro p hp
  rw [hr] at hp
  exact h p hp

theorem Aligned.outOperand (h : Aligned e) (o : Operand) : Aligned (e.outOperand o) := by
  cases o with
  | int n => exact h.of_eq rfl
  | slot info =>
      intro p hp
      rcases List.mem_cons.mp hp with rfl | hold
      · exact Nat.dvd_mul_right ..
      · exact h p hold
  | labels lbls => exact h.of_eq (length_outLabels _ e lbls).2

theorem Aligned.outInstr (h : Aligned e) (i : Encoding) : Aligned (e.outInstr i) := by
  have hfold : ∀ (os : List Operand) {e : Emitter}, Aligned e →
      Aligned (os.foldl Emitter.outOperand e) := by
    intro os
    induction os with
    | nil => exact fun h => h
    | cons o os ih => exact fun h => ih (h.outOperand o)
  exact hfold i.operands (h.of_eq rfl)

theorem Aligned.emitInstr {instr : Instruction} (h : Aligned e)
    (hi : e.emitInstr instr = .ok e') : Aligned e' := by
  unfold Emitter.emitInstr at hi
  split at hi
  · exact h.of_eq (Emitter.defineLabel_kept hi).2
  · split at hi
    · obtain rfl := Except.ok.inj hi
      exact h.outInstr _
    · obtain rfl := Except.ok.inj hi
      exact h

/-- `emit` notes slots at whole words only. -/
theorem Aligned.emit {code : List Instruction} (h : Aligned e)
    (hc : CamlEmit.emit code e = .ok e') : Aligned e' := by
  fun_induction CamlEmit.emit code e with
  | case1 e =>
      obtain rfl := Except.ok.inj hc
      exact h
  | case30 =>
      rename_i ih
      obtain ⟨e1, he1, hc⟩ := bind_ok hc
      exact ih e1 (h.emitInstr he1) hc
  | case18 | case20 | case22 | case24 | case26 | case28 => cases hc
  | _ =>
      rename_i ih
      -- a fused test, whose constant may fail; a fused instruction; a list rearranged
      first
        | obtain ⟨i, -, hc⟩ := bind_ok hc
          exact ih i (h.outInstr i) hc
        | exact ih (h.outInstr _) hc
        | exact ih h hc

theorem CompUnit.aligned (u : CompUnit) : Aligned u.emitter :=
  Aligned.emit (fun p hp => by cases hp) u.emitted

/-! ## From the emitter to memory -/

theorem linkCompunit_words (u : CompUnit) : linkCompunit u = bytesOf u.words :=
  patchObject_words u.slot _ fun p hp => u.aligned p (List.mem_reverse.mp hp)

/-- The linker changes the slots and nothing else. -/
theorem words_other (u : CompUnit) {k : Nat} (h : ∀ info, (info, 4 * k) ∉ u.emitter.relocInfo) :
    u.words[k]? = u.emitter.outBuffer[k]? := by
  refine patchWords_other _ _ fun p hp hk => ?_
  have hmem := List.mem_reverse.mp hp
  have hpos : p.2 = 4 * k := by rw [← hk, Nat.mul_div_cancel' (u.aligned p hmem)]
  exact h p.1 (hpos ▸ hmem)

theorem words_slot (u : CompUnit) {p : RelocInfo × Nat} (hp : p ∈ u.emitter.relocInfo) :
    ∃ q ∈ u.emitter.relocInfo, q.2 = p.2 ∧
      u.words[p.2 / 4]? = some (BitVec.ofInt 32 (u.slot q)) := by
  have hlt := (emit_valid u.emitted).slots hp
  have hword : p.2 / 4 < u.emitter.outBuffer.length := by
    unfold Emitter.outPosition at hlt
    omega
  obtain ⟨q, hq, hk, hw⟩ := patchWords_slot u.slot _ (List.mem_reverse.mpr hp) hword
  have hq' := List.mem_reverse.mp hq
  refine ⟨q, hq', ?_, hw⟩
  rw [← Nat.mul_div_cancel' (u.aligned q hq'), hk, Nat.mul_div_cancel' (u.aligned p hp)]

theorem flatten_units (us : List CompUnit) :
    (us.map linkCompunit ++ outputStop).flatten =
      bytesOf (us.flatMap CompUnit.words ++ [Opcode.STOP.code]) := by
  induction us with
  | nil => rfl
  | cons u us ih =>
      rw [List.map_cons, List.cons_append, List.flatten_cons, ih, linkCompunit_words,
        List.flatMap_cons, List.append_assoc]
      exact List.flatMap_append.symm

theorem lastNamed_code (x : Program) :
    lastNamed CODE (x.sections ++ x.debugSections) = some (x.code ++ outputStop).flatten := by
  obtain ⟨runtime, code, dlls, primitives, globals, symbols, crcs, debug⟩ := x
  cases runtime with
  | none => cases dlls with
    | none => cases debug <;> rfl
    | some d => cases debug <;> rfl
  | some r => cases dlls with
    | none => cases debug <;> rfl
    | some d => cases debug <;> rfl

/-- A linked program is loaded: its units one after the other, and a final `STOP`. -/
theorem linked_loads {x : Program} {us : List CompUnit} (hx : x.code = us.map linkCompunit)
    (hfits : x.Fits) (s : Channels) :
    ∃ s' trail trail', link (linkBytecode x) s = .ok ((), s') ∧
      readTrailer s'.output = .ok trail ∧ readSectionDescriptors s'.output trail = .ok trail' ∧
      ∀ pos, camlLoadCode s'.output pos trail' =
        .ok (us.flatMap CompUnit.words ++ [Opcode.STOP.code]) := by
  obtain ⟨s', hlink, hout⟩ := link_run (recorded_linkBytecode x) s
  refine ⟨s', ⟨BitVec.ofInt 32 (x.sections ++ x.debugSections).length, []⟩,
    trailerOf (x.sections ++ x.debugSections), hlink, ?_⟩
  rw [hout]
  have hs := hfits.storable
  refine ⟨readTrailer_run s.output hs, readSectionDescriptors_run s.output hs, ?_⟩
  intro pos
  rw [camlLoadCode_run s.output hs (lastNamed_code x) pos, hx, flatten_units, wordsIn_bytesOf]

/-- The code in memory of a program whose sections fit the format is that of the units
    one after the other, and a final `STOP`; a unit has the words that were emitted for
    it, but for its slots, and these hold the numbers that the linker was given for
    them. -/
theorem loaded_as_emitted {x : Program} {us : List CompUnit} (hx : x.code = us.map linkCompunit)
    (hfits : x.Fits) (s : Channels) :
    ∃ s' trail trail', link (linkBytecode x) s = .ok ((), s') ∧
      readTrailer s'.output = .ok trail ∧ readSectionDescriptors s'.output trail = .ok trail' ∧
      (∀ pos, camlLoadCode s'.output pos trail' =
        .ok (us.flatMap CompUnit.words ++ [Opcode.STOP.code])) ∧
      ∀ u ∈ us, u.words.length = u.emitter.outBuffer.length ∧
        (∀ k, (∀ info, (info, 4 * k) ∉ u.emitter.relocInfo) →
          u.words[k]? = u.emitter.outBuffer[k]?) ∧
        ∀ p ∈ u.emitter.relocInfo, ∃ q ∈ u.emitter.relocInfo, q.2 = p.2 ∧
          u.words[p.2 / 4]? = some (BitVec.ofInt 32 (u.slot q)) := by
  obtain ⟨s', trail, trail', hlink, htrail, hdesc, hload⟩ := linked_loads hx hfits s
  refine ⟨s', trail, trail', hlink, htrail, hdesc, hload, ?_⟩
  intro u hu
  exact ⟨length_patchWords .., fun k => words_other u, fun p hp => words_slot u hp⟩

theorem emit_getglobal : emit [.Kgetglobal "A"] init =
    .ok (init.outInstr ⟨opNum .GETGLOBAL, [.slot (.Reloc_getglobal "A")]⟩) := by
  rw [emit]
  · show emit [] _ = _
    rw [emit]
  all_goals simp

/-- A unit that gets one global, which is number 7. -/
def getglobalUnit : CompUnit := ⟨[.Kgetglobal "A"], _, emit_getglobal, fun _ => 7⟩

theorem loaded_as_emitted_getglobal :
    ∃ s' trail',
      link (linkBytecode ⟨none, [linkCompunit getglobalUnit], none, [], [], [], [], none⟩)
        ⟨[], 0, [0x23], [], 0⟩ = .ok ((), s') ∧
      camlLoadCode s'.output 0 trail' =
        .ok [Opcode.GETGLOBAL.code, 7#32, Opcode.STOP.code] := by
  obtain ⟨s', trail, trail', hlink, -, -, hload, -⟩ :=
    @loaded_as_emitted ⟨none, [linkCompunit getglobalUnit], none, [], [], [], [], none⟩
      [getglobalUnit] rfl (by unfold Program.Fits; decide) ⟨[], 0, [0x23], [], 0⟩
  exact ⟨s', trail', hlink, hload 0⟩

end CamlLoad
