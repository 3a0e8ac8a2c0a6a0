import CamlInterp.CompileProofs
import CamlInterp.ThreadLoadProofs

/-! # From terms to code in memory

    The code generator, the emitter, the linker and the loader one after the
    other: every term that compiles is a compilation unit, and a program made of
    such units is what the runtime system has in memory when it starts. -/

namespace CamlProgram

open CamlOpcode CamlLambda CamlMatching CamlBytegen CamlEmit CamlAssembly CamlThread
open CamlSections CamlStrip CamlLoad CamlThreadLoad

/-- A term that compiles, and the numbers for the slots of its code.  The events of a
    compilation with `-g` can be merged; without `-g` there are none, as a rule, and
    this asks for nothing. -/
structure Source where
  debug : Bool
  counters : Counters
  term : Lambda
  code : Code
  compiled : compileImplementation debug counters term = .ok code
  merges : ¬ Unmerged debug term (emit code CamlEmit.init)
  slot : RelocInfo × Nat → Int

/-- The unit is made from the source. -/
def Made (f : Source) (u : CompUnit) : Prop := u.code = f.code ∧ u.slot = f.slot

/-- What has been compiled can be emitted. -/
theorem source_made (f : Source) : ∃ u, Made f u := by
  obtain ⟨e, he, -⟩ := (compileImplementation_emits f.compiled).resolve_right f.merges
  exact ⟨⟨f.code, e, he, f.slot⟩, rfl, rfl⟩

theorem sources_made (fs : List Source) : ∃ us, List.Forall₂ Made fs us := by
  induction fs with
  | nil => exact ⟨[], .nil⟩
  | cons f fs ih =>
      obtain ⟨u, hu⟩ := source_made f
      obtain ⟨us, hus⟩ := ih
      exact ⟨u :: us, .cons hu hus⟩

/-- What holds of all instructions of the sources holds of those of the units. -/
theorem made_code {P : Instruction → Prop} {fs : List Source} {us : List CompUnit}
    (h : List.Forall₂ Made fs us) (hf : ∀ f ∈ fs, ∀ instr ∈ f.code, P instr) :
    ∀ u ∈ us, ∀ instr ∈ u.code, P instr := by
  induction h with
  | nil =>
      intro u hu
      cases hu
  | cons hu _ ih =>
      rw [List.forall_mem_cons] at hf ⊢
      refine ⟨?_, ih hf.2⟩
      rw [hu.1]
      exact hf.1

/-- Terms that compile make a program: each has a unit, and whatever the linker puts
    into the slots and whatever else is in the executable, as long as the sections are
    below 2 ^ 31 - 1 bytes, the words of the units and a final `STOP` are in memory when
    it has been loaded, and `caml_thread_code` prepares all of them for execution. -/
theorem sources_load (fs : List Source) :
    (∃ us, List.Forall₂ Made fs us) ∧
      ∀ {us}, List.Forall₂ Made fs us → ∀ {x : Program}, x.code = us.map linkCompunit →
        x.Fits → ∀ s : Channels,
        ∃ s' trail trail', link (linkBytecode x) s = .ok ((), s') ∧
          readTrailer s'.output = .ok trail ∧
          readSectionDescriptors s'.output trail = .ok trail' ∧
          (∀ pos, camlLoadCode s'.output pos trail' =
            .ok (us.flatMap CompUnit.words ++ [Opcode.STOP.code])) ∧
          ((∀ f ∈ fs, ∀ instr ∈ f.code, Sane instr) → ∀ instrTable, ∃ words,
            camlThreadCode instrTable (us.flatMap CompUnit.words ++ [Opcode.STOP.code]) =
              .ok words) := by
  refine ⟨sources_made fs, ?_⟩
  intro us hus x hx hfits s
  obtain ⟨s', trail, trail', hlink, htrail, hdesc, hload⟩ := linked_loads hx hfits s
  refine ⟨s', trail, trail', hlink, htrail, hdesc, hload, ?_⟩
  intro hsane instrTable
  obtain ⟨chunks, hchunks, hwords⟩ := units_chunks us (made_code hus hsane)
  rw [← hwords]
  exact ⟨_, thread_chunks instrTable hchunks⟩

/-- The program `0`, compiled without `-g`. -/
def zeroSource : Source where
  debug := false
  counters := ⟨0, 0⟩
  term := .Lconst (.Const_base (.Const_int 0))
  code := [constInt 60, .Kccall "caml_ensure_stack_capacity" 1, constInt 0]
  compiled := rfl
  merges := fun h => absurd h.1 (by decide)
  slot := fun _ => 3

/-- The three instructions that are written for it. -/
theorem emit_zero : emit zeroSource.code CamlEmit.init = .ok
    (((CamlEmit.init.outInstr ⟨opNum .CONSTINT, [.int 60]⟩).outInstr
      ⟨opNum .C_CALL1, [.slot (.Reloc_primitive "caml_ensure_stack_capacity")]⟩).outInstr
      ⟨opNum .CONST0, []⟩) := by
  show emit [constInt 60, .Kccall "caml_ensure_stack_capacity" 1, constInt 0] _ = _
  rw [emit]
  · show emit [.Kccall "caml_ensure_stack_capacity" 1, constInt 0] _ = _
    rw [emit]
    · show emit [constInt 0] _ = _
      rw [emit]
      · show emit [] _ = _
        rw [emit]
        rfl
      all_goals simp
    all_goals simp
  all_goals simp

/-- The words of `0` are in memory and can be executed. -/
theorem sources_load_zero :
    ∃ us, List.Forall₂ Made [zeroSource] us ∧ ∃ s' trail',
      link (linkBytecode ⟨none, us.map linkCompunit, none, [], [], [], [], none⟩)
        ⟨[], 0, [0x23], [], 0⟩ = .ok ((), s') ∧
      camlLoadCode s'.output 0 trail' =
        .ok (us.flatMap CompUnit.words ++ [Opcode.STOP.code]) ∧
      ∃ words, camlThreadCode (fun op => op.code + 1000)
        (us.flatMap CompUnit.words ++ [Opcode.STOP.code]) = .ok words := by
  obtain ⟨-, hload⟩ := sources_load [zeroSource]
  have hmade : List.Forall₂ Made [zeroSource] [⟨zeroSource.code, _, emit_zero, zeroSource.slot⟩] :=
    .cons ⟨rfl, rfl⟩ .nil
  obtain ⟨s', trail, trail', hlink, -, -, hcode, hthread⟩ :=
    @hload _ hmade ⟨none, _, none, [], [], [], [], none⟩ rfl (by unfold Program.Fits; decide)
      ⟨[], 0, [0x23], [], 0⟩
  refine ⟨_, hmade, s', trail', hlink, hcode 0, hthread ?_ _⟩
  intro f hf instr hinstr
  rw [List.mem_singleton.mp hf] at hinstr
  rcases List.mem_cons.mp hinstr with rfl | hinstr
  · exact ⟨trivial, trivial⟩
  · rcases List.mem_cons.mp hinstr with rfl | hinstr
    · exact ⟨by show (0 : Int) < 1; decide, trivial⟩
    · rw [List.mem_singleton.mp hinstr]
      exact ⟨trivial, trivial⟩

end CamlProgram
