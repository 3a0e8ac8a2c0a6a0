import CamlInterp.SectionProofs
import CamlInterp.OpcodeProofs

/-! # `stripdebug` — `bytelink.ml` and `stripdebug.ml`

    The tool copies the sections of an executable, except for the debugging
    information.  It does not skip that section: it goes behind the end of the
    file, where nothing is left to copy.  So only empty sections may follow it;
    the linker writes it last. -/

namespace CamlStrip

open CamlSections CamlOpcode

/-! ## The linker -/

/-- What `link_bytecode` writes: the line with the interpreter, the code of the
    files, for a standalone program the paths and names of the DLLs, and with
    `-g` the debugging information. -/
structure Program where
  runtime : Option Bytes
  code : List Bytes
  dlls : Option (List Bytes × List Bytes)
  primitives : Bytes
  globals : Bytes
  symbols : Bytes
  crcs : Bytes
  debug : Option Bytes

def RNTM : Bytes := [0x52, 0x4E, 0x54, 0x4D]
def CODE : Bytes := [0x43, 0x4F, 0x44, 0x45]
def DLPT : Bytes := [0x44, 0x4C, 0x50, 0x54]
def DLLS : Bytes := [0x44, 0x4C, 0x4C, 0x53]
def PRIM : Bytes := [0x50, 0x52, 0x49, 0x4D]
def DATA : Bytes := [0x44, 0x41, 0x54, 0x41]
def SYMB : Bytes := [0x53, 0x59, 0x4D, 0x42]
def CRCS : Bytes := [0x43, 0x52, 0x43, 0x53]
def DBUG : Bytes := [0x44, 0x42, 0x55, 0x47]

/-- Some output, and `Bytesections.record`. -/
def written (name : Bytes) (outputs : List Bytes) : List Write :=
  outputs.map .output ++ [.record name]

/-- `output_stringlist` -/
def outputStringlist (l : List Bytes) : List Bytes := l.flatMap fun s => [s, [0]]

/-- The final `STOP` instruction. -/
def outputStop : List Bytes := [[Opcode.STOP.code.setWidth 8], [0], [0], [0]]

/-- `link_bytecode`, between `init_record` and `write_toc_and_trailer`. -/
def linkBytecode (x : Program) : List Write :=
  (x.runtime.elim [] fun r => written RNTM [r, [0x0A]]) ++
  (written CODE (x.code ++ outputStop) ++
  ((x.dlls.elim [] fun d =>
    written DLPT (outputStringlist d.1) ++ written DLLS (outputStringlist d.2)) ++
  (written PRIM [x.primitives] ++
  (written DATA [x.globals] ++
  (written SYMB [x.symbols] ++
  (written CRCS [x.crcs] ++
  (x.debug.elim [] fun d => written DBUG [d])))))))

/-! ## Copying -/

/-- `input ic buff 0 n`.  A channel may have less at hand than is asked for: at
    position `pos` it gives at most `burst pos + 1` bytes. -/
def input (burst : Nat → Nat) (n : Nat) : M Bytes := do
  let s ← get
  let r := min n (min (burst s.pos + 1) (s.input.length - s.pos))
  set { s with pos := s.pos + r }
  return (s.input.drop s.pos).take r

/-- `copy_file_chunk` of `misc.ml` -/
def copyFileChunk (burst : Nat → Nat) (n : Int) : M Unit :=
  if n ≤ 0 then return ()
  else do
    let bs ← input burst (min n 0x1000).toNat
    if bs.length = 0 then throw .End_of_file
    else do
      outputString bs
      copyFileChunk burst (n - bs.length)
termination_by n.toNat
decreasing_by omega

/-- The body of the loop of `stripdebug`. -/
def copySection (burst : Nat → Nat) (name : Bytes) (len : Int) : M Unit :=
  if name = DBUG then do
    seekIn ((← inChannelLength) + len)
  else do
    copyFileChunk burst len
    record name

/-- The `List.iter` of `stripdebug`. -/
def copySections (burst : Nat → Nat) : List (Bytes × Int) → M Unit
  | [] => return ()
  | (name, len) :: rem => do
      copySection burst name len
      copySections burst rem

/-- `stripdebug` -/
def stripdebug (burst : Nat → Nat) : M Unit := do
  readToc
  let toc ← toc
  let posFirstSection ← posFirstSection
  seekIn posFirstSection
  initRecord
  copySections burst toc
  writeTocAndTrailer

/-! ## A chunk -/

variable {burst : Nat → Nat} {s : Channels}

theorem input_run {n : Nat} (s : Channels) :
    input burst n s = .ok ((s.input.drop s.pos).take
        (min n (min (burst s.pos + 1) (s.input.length - s.pos))),
      { s with pos := s.pos + min n (min (burst s.pos + 1) (s.input.length - s.pos)) }) :=
  rfl

/-- However much the channel gives at a time, the chunk is copied whole. -/
theorem copyFileChunk_run {a b c : Bytes} {n : Int} (hin : s.input = a ++ (b ++ c))
    (hpos : s.pos = a.length) (hn : n = b.length) :
    copyFileChunk burst n s =
      .ok ((), { s with pos := a.length + b.length, output := s.output ++ b }) := by
  subst hn
  induction hk : b.length using Nat.strong_induction_on generalizing a b s with
  | _ k ih =>
      subst hk
      rw [copyFileChunk]
      by_cases hb : b = []
      · subst hb
        obtain ⟨input, pos, output, table, start⟩ := s
        dsimp only at hpos
        subst hpos
        rw [if_pos (by simp)]
        show Except.ok ((), (⟨input, a.length, output, table, start⟩ : Channels)) = _
        rw [List.append_nil]
        rfl
      · have hlen : 0 < b.length := List.length_pos_iff.mpr hb
        have hleft : s.input.length - s.pos = b.length + c.length := by
          rw [hin, hpos, List.length_append, List.length_append]
          omega
        rw [if_neg (by omega), run_bind (input_run s), hleft, hpos, hin, List.drop_left]
        generalize hr : min (min (b.length : Int) 0x1000).toNat
          (min (burst a.length + 1) (b.length + c.length)) = r
        have hr0 : 0 < r := by omega
        have hrb : r ≤ b.length := by omega
        have htake : (b ++ c).take r = b.take r := List.take_append_of_le_length hrb
        have hl : (b.take r).length = r := List.length_take_of_le hrb
        rw [htake, hl, if_neg (by omega), run_bind (a := ()) (x := outputString _) rfl]
        have hrest : (b.drop r).length = b.length - r := List.length_drop ..
        have hcopy := @ih (b.length - r) (by omega)
          { s with pos := a.length + r, output := s.output ++ b.take r } (a ++ b.take r)
          (b.drop r) (by
            show s.input = _
            rw [hin, List.append_assoc, ← List.append_assoc (b.take r), List.take_append_drop])
          (by
            show a.length + r = _
            rw [List.length_append, hl]) hrest
        have hint : (b.length : Int) - r = (b.length - r : Nat) := by omega
        rw [hint, ← hin]
        refine hcopy.trans ?_
        rw [List.length_append, hl, List.append_assoc, List.take_append_drop,
          show a.length + r + (b.length - r) = a.length + b.length by omega]

/-- Behind the end of the file there is only an empty chunk. -/
theorem copyFileChunk_behind {n : Nat} (hpos : s.input.length ≤ s.pos) :
    copyFileChunk burst n s = if n = 0 then .ok ((), s) else .error .End_of_file := by
  rw [copyFileChunk]
  by_cases hn : n = 0
  · rw [if_pos (by omega), if_pos hn]
    rfl
  · have hnone : s.input.length - s.pos = 0 := by omega
    rw [if_neg (by omega), if_neg hn, run_bind (input_run s), hnone, Nat.min_zero, Nat.min_zero,
      List.take_zero]
    rfl

/-! ## The sections -/

/-- The sections that are to be copied. -/
def kept (ss : List Sec) : List Sec := ss.filter (·.1 ≠ DBUG)

/-- Only empty sections stand behind the debugging information. -/
def Strippable (ss : List Sec) : Prop :=
  ∀ t ∈ ss.dropWhile (·.1 ≠ DBUG), t.1 ≠ DBUG → t.2 = []

/-- These sections are written behind `out`, and are in the table. -/
structure Copied (out : Bytes) (ss : List Sec) (s : Channels) : Prop where
  output : s.output = out ++ dataOf ss
  table : s.sectionTable = (tocOf ss).reverse
  beginning : s.sectionBeginning = s.output.length

/-- How the loop ends: with these sections written, or at the end of the file. -/
structure Ends (out : Bytes) (ss : List Sec) (P : Prop) (r : Except IoError (Unit × Channels)) :
    Prop where
  copied : P → ∃ s', r = .ok ((), s') ∧ Copied out ss s'
  failed : ¬ P → r = .error .End_of_file

variable {out : Bytes} {ss todo : List Sec}

theorem kept_cons_of_eq {t : Sec} (ht : t.1 = DBUG) : kept (t :: todo) = kept todo :=
  List.filter_cons_of_neg (by simp [ht])

theorem kept_cons_of_ne {t : Sec} (ht : t.1 ≠ DBUG) : kept (t :: todo) = t :: kept todo :=
  List.filter_cons_of_pos (by simp [ht])

theorem Ends.congr {P Q : Prop} {r : Except IoError (Unit × Channels)} (h : Ends out ss P r)
    (hpq : P ↔ Q) : Ends out ss Q r :=
  ⟨fun hq => h.copied (hpq.mpr hq), fun hq => h.failed fun hp => hq (hpq.mp hp)⟩

/-- A section is recorded behind the data that were copied for it. -/
theorem record_copied {d : Bytes} (hc : Copied out ss s) (name : Bytes) (pos : Nat) :
    ∃ s', record name { s with pos := pos, output := s.output ++ d } = .ok ((), s') ∧
      Copied out (ss ++ [(name, d)]) s' ∧ s'.input = s.input ∧ s'.pos = pos := by
  refine ⟨_, rfl, ⟨?_, ?_, rfl⟩, rfl, rfl⟩
  · show s.output ++ d = _
    rw [hc.output, dataOf_concat, List.append_assoc]
  · show (name, ((s.output ++ d).length : Int) - s.sectionBeginning) :: s.sectionTable = _
    rw [hc.table, hc.beginning, tocOf, tocOf, List.map_append, List.reverse_append,
      List.length_append]
    push_cast
    simp

theorem copySection_debug {t : Sec} (ht : t.1 = DBUG) (s : Channels) :
    copySection burst t.1 t.2.length s =
      .ok ((), { s with pos := s.input.length + t.2.length }) := by
  rw [copySection, if_pos ht]
  exact seekIn_run rfl s

theorem copySection_run {t : Sec} {a c : Bytes} (ht : t.1 ≠ DBUG) (hc : Copied out ss s)
    (hin : s.input = a ++ (t.2 ++ c)) (hpos : s.pos = a.length) :
    ∃ s', copySection burst t.1 t.2.length s = .ok ((), s') ∧ Copied out (ss ++ [t]) s' ∧
      s'.input = s.input ∧ s'.pos = a.length + t.2.length := by
  obtain ⟨s', hrec, hs'⟩ := record_copied (d := t.2) hc t.1 (a.length + t.2.length)
  refine ⟨s', ?_, hs'⟩
  rw [copySection, if_neg ht, run_bind (copyFileChunk_run hin hpos rfl)]
  exact hrec

/-- Behind the end of the file a section is copied if it is empty. -/
theorem copySection_behind {t : Sec} (ht : t.1 ≠ DBUG) (hc : Copied out ss s)
    (hpos : s.input.length ≤ s.pos) :
    (t.2 = [] → ∃ s', copySection burst t.1 t.2.length s = .ok ((), s') ∧
      Copied out (ss ++ [t]) s' ∧ s'.input = s.input ∧ s'.pos = s.pos) ∧
    (t.2 ≠ [] → copySection burst t.1 t.2.length s = .error .End_of_file) := by
  have hchunk := @copyFileChunk_behind burst s t.2.length hpos
  constructor
  · intro hd
    obtain ⟨s', hrec, hs'⟩ := record_copied (d := t.2) hc t.1 s.pos
    refine ⟨s', ?_, hs'⟩
    rw [if_pos (List.length_eq_zero_iff.mpr hd)] at hchunk
    rw [copySection, if_neg ht, run_bind hchunk, ← hrec, hd, List.append_nil]
  · intro hd
    rw [if_neg fun h => hd (List.length_eq_zero_iff.mp h)] at hchunk
    rw [copySection, if_neg ht]
    exact run_error hchunk

/-- Behind the end of the file only empty sections are copied. -/
theorem copySections_behind (hc : Copied out ss s) (hpos : s.input.length ≤ s.pos) :
    Ends out (ss ++ kept todo) (∀ t ∈ todo, t.1 ≠ DBUG → t.2 = [])
      (copySections burst (tocOf todo) s) := by
  induction todo generalizing ss s with
  | nil =>
      refine ⟨fun _ => ⟨s, rfl, ?_⟩, fun h => absurd (by simp) h⟩
      rw [kept, List.filter_nil, List.append_nil]
      exact hc
  | cons t todo ih =>
      show Ends _ _ _ ((copySection burst t.1 t.2.length >>= fun _ =>
        copySections burst (tocOf todo)) s)
      by_cases ht : t.1 = DBUG
      · rw [run_bind (copySection_debug ht s), kept_cons_of_eq ht]
        refine (ih (s := { s with pos := s.input.length + t.2.length })
          ⟨hc.output, hc.table, hc.beginning⟩ (Nat.le_add_right ..)).congr ?_
        rw [List.forall_mem_cons]
        exact (and_iff_right fun hne => absurd ht hne).symm
      · obtain ⟨hempty, hdata⟩ := @copySection_behind burst s out ss t ht hc hpos
        rw [List.forall_mem_cons]
        by_cases hd : t.2 = []
        · obtain ⟨s1, hrun, hc1, hin1, hpos1⟩ := hempty hd
          have hrest := ih hc1 (by rw [hin1, hpos1]; exact hpos)
          rw [List.append_assoc, List.singleton_append] at hrest
          rw [run_bind hrun, kept_cons_of_ne ht]
          exact hrest.congr (and_iff_right fun _ => hd).symm
        · exact ⟨fun h => absurd (h.1 ht) hd, fun _ => run_error (hdata hd)⟩

/-- The sections in front of the debugging information are copied, and the
    empty ones behind it. -/
theorem copySections_run {a c : Bytes} (hc : Copied out ss s)
    (hin : s.input = a ++ (dataOf todo ++ c)) (hpos : s.pos = a.length) :
    Ends out (ss ++ kept todo) (Strippable todo) (copySections burst (tocOf todo) s) := by
  induction todo generalizing ss s a with
  | nil =>
      refine ⟨fun _ => ⟨s, rfl, ?_⟩, fun h => absurd (by simp [Strippable]) h⟩
      rw [kept, List.filter_nil, List.append_nil]
      exact hc
  | cons t todo ih =>
      have hdata : dataOf (t :: todo) = t.2 ++ dataOf todo := rfl
      show Ends _ _ _ ((copySection burst t.1 t.2.length >>= fun _ =>
        copySections burst (tocOf todo)) s)
      by_cases ht : t.1 = DBUG
      · rw [run_bind (copySection_debug ht s), kept_cons_of_eq ht]
        refine (copySections_behind (s := { s with pos := s.input.length + t.2.length })
          ⟨hc.output, hc.table, hc.beginning⟩ (Nat.le_add_right ..)).congr ?_
        rw [Strippable, List.dropWhile_cons_of_neg (by simp [ht]), List.forall_mem_cons]
        exact (and_iff_right fun hne => absurd ht hne).symm
      · rw [hdata, List.append_assoc] at hin
        obtain ⟨s1, hrun, hc1, hin1, hpos1⟩ := @copySection_run burst s out ss t a _ ht hc hin hpos
        have hrest := ih (a := a ++ t.2) hc1 (by rw [hin1, hin, List.append_assoc])
          (by rw [hpos1, List.length_append])
        rw [List.append_assoc, List.singleton_append] at hrest
        rw [run_bind hrun, kept_cons_of_ne ht]
        refine hrest.congr ?_
        rw [Strippable, Strippable, List.dropWhile_cons_of_pos (by simp [ht])]

/-! ## What the linker leaves -/

/-- The sections of a program, but for the debugging information. -/
def Program.sections (x : Program) : List Sec :=
  (x.runtime.elim [] fun r => [(RNTM, [r, [0x0A]].flatten)]) ++
  ((CODE, (x.code ++ outputStop).flatten) ::
  ((x.dlls.elim [] fun d =>
    [(DLPT, (outputStringlist d.1).flatten), (DLLS, (outputStringlist d.2).flatten)]) ++
  [(PRIM, x.primitives), (DATA, x.globals), (SYMB, x.symbols), (CRCS, x.crcs)]))

/-- The debugging information of a program. -/
def Program.debugSections (x : Program) : List Sec := x.debug.elim [] fun d => [(DBUG, d)]

theorem recorded_outputs (d name : Bytes) (outputs : List Bytes) (ws : List Write) :
    recorded d (outputs.map .output ++ (.record name :: ws)) =
      ((name, d ++ outputs.flatten) :: (recorded [] ws).1, (recorded [] ws).2) := by
  induction outputs generalizing d with
  | nil =>
      rw [List.flatten_nil, List.append_nil]
      rfl
  | cons bs outputs ih =>
      rw [List.flatten_cons, ← List.append_assoc]
      exact ih (d ++ bs)

theorem recorded_written (name : Bytes) (outputs : List Bytes) (ws : List Write) :
    recorded [] (written name outputs ++ ws) =
      ((name, outputs.flatten) :: (recorded [] ws).1, (recorded [] ws).2) := by
  rw [written, List.append_assoc, List.singleton_append, recorded_outputs, List.nil_append]

/-- The debugging information is recorded last. -/
theorem recorded_linkBytecode (x : Program) :
    recorded [] (linkBytecode x) = (x.sections ++ x.debugSections, []) := by
  have hdebug : recorded [] (x.debug.elim [] fun d => written DBUG [d]) =
      (x.debugSections, []) := by
    unfold Program.debugSections
    cases x.debug with
    | none => rfl
    | some d => exact congrArg (fun b => ([(DBUG, b)], ([] : Bytes))) (List.nil_append d)
  unfold linkBytecode Program.sections
  cases x.runtime with
  | none =>
      cases x.dlls with
      | none => simp [recorded_written, hdebug]
      | some d => simp [recorded_written, hdebug]
  | some r =>
      cases x.dlls with
      | none => simp [recorded_written, hdebug]
      | some d => simp [recorded_written, hdebug]

theorem sections_ne_debug (x : Program) : ∀ t ∈ x.sections, t.1 ≠ DBUG := by
  unfold Program.sections
  cases x.runtime with
  | none =>
      cases x.dlls with
      | none => simp [CODE, PRIM, DATA, SYMB, CRCS, DBUG]
      | some d => simp [CODE, DLPT, DLLS, PRIM, DATA, SYMB, CRCS, DBUG]
  | some r =>
      cases x.dlls with
      | none => simp [RNTM, CODE, PRIM, DATA, SYMB, CRCS, DBUG]
      | some d => simp [RNTM, CODE, DLPT, DLLS, PRIM, DATA, SYMB, CRCS, DBUG]

theorem debugSections_eq (x : Program) : ∀ t ∈ x.debugSections, t.1 = DBUG := by
  unfold Program.debugSections
  cases x.debug with
  | none => simp
  | some d => simp

/-- Nothing stands behind the debugging information of a linked program. -/
theorem linked_strippable (x : Program) : Strippable (x.sections ++ x.debugSections) := by
  have hfront : ∀ t ∈ x.sections, decide (t.1 ≠ DBUG) = true := by
    intro t ht
    simpa using sections_ne_debug x t ht
  intro t ht hne
  rw [List.dropWhile_append_of_pos hfront] at ht
  exact absurd (debugSections_eq x t ((List.dropWhile_sublist _).subset ht)) hne

theorem kept_linked (x : Program) : kept (x.sections ++ x.debugSections) = x.sections := by
  rw [kept, List.filter_append, List.filter_eq_self.mpr, List.filter_eq_nil_iff.mpr,
    List.append_nil]
  · intro t ht
    simp [debugSections_eq x t ht]
  · intro t ht
    simp [sections_ne_debug x t ht]

/-! ## What is kept -/

/-- A section that is not the debugging information is found as before. -/
theorem lastNamed_kept {name : Bytes} (hname : name ≠ DBUG) (ss : List Sec) :
    lastNamed name (kept ss) = lastNamed name ss := by
  induction ss using List.reverseRecOn with
  | nil => rfl
  | append_singleton ss t ih =>
      have hk : kept (ss ++ [t]) = kept ss ++ kept [t] := List.filter_append ..
      rw [hk, lastNamed_concat]
      by_cases ht : t.1 = DBUG
      · rw [kept_cons_of_eq ht, if_neg fun h => hname (h.symm.trans ht)]
        exact (congrArg _ (List.append_nil _)).trans ih
      · rw [kept_cons_of_ne ht]
        show lastNamed name (kept ss ++ [t]) = _
        rw [lastNamed_concat, ih]

theorem lastNamed_debug (ss : List Sec) : lastNamed DBUG (kept ss) = none := by
  cases hl : lastNamed DBUG (kept ss) with
  | none => rfl
  | some d =>
      have hmem := lastNamed_some hl
      have hne := (List.mem_filter.mp hmem).2
      simp at hne

/-- The copy has the sections that are kept, and no header. -/
theorem stripdebug_run {pre : Bytes} (burst : Nat → Nat) (hs : Storable ss)
    (hin : s.input = executable pre ss) :
    (Strippable ss → ∃ s', stripdebug burst s = .ok ((), s') ∧
      s'.output = executable s.output (kept ss)) ∧
    (¬ Strippable ss → stripdebug burst s = .error .End_of_file) := by
  obtain ⟨p, htoc⟩ := readToc_run hs hin
  have hread : Read pre ss { s with pos := p, sectionTable := (tocOf ss).reverse } := ⟨hin, rfl⟩
  have hbegin := @copySections_run burst { s with
      pos := pre.length, sectionTable := [], sectionBeginning := s.output.length }
    s.output [] ss pre _ ⟨(List.append_nil _).symm, rfl, rfl⟩ hin rfl
  rw [List.nil_append] at hbegin
  have hrun : stripdebug burst s = (copySections burst (tocOf ss) >>= fun _ =>
      writeTocAndTrailer) { s with
        pos := pre.length, sectionTable := [], sectionBeginning := s.output.length } := by
    unfold stripdebug
    rw [run_bind htoc, run_bind (a := (tocOf ss).reverse.reverse) (x := toc) rfl,
      run_bind (posFirstSection_run hread hs), run_bind (seekIn_run rfl _),
      run_bind (a := ()) (x := initRecord) rfl, List.reverse_reverse]
  rw [hrun]
  constructor
  · intro hstrip
    obtain ⟨s1, hcopy, hc⟩ := hbegin.copied hstrip
    obtain ⟨s2, hwrite, hout⟩ := writeTocAndTrailer_run hc.table
    rw [run_bind hcopy]
    exact ⟨s2, hwrite, by rw [hout, hc.output, executable, List.append_assoc]⟩
  · intro hstrip
    exact run_error (hbegin.failed hstrip)

theorem storable_kept (hs : Storable ss) : Storable (kept ss) := hs.sublist List.filter_sublist

/-- `stripdebug` succeeds on an executable exactly when only empty sections stand
    behind its debugging information.  The runtime system then finds in the copy
    what it finds in the file, but for that section. -/
theorem stripdebug_keeps {pre : Bytes} (burst : Nat → Nat) (hs : Storable ss)
    (hin : s.input = executable pre ss) :
    (Strippable ss → ∃ s' trail trail', stripdebug burst s = .ok ((), s') ∧
      readTrailer s'.output = .ok trail ∧ readSectionDescriptors s'.output trail = .ok trail' ∧
      ∀ pos, readSection s'.output pos trail' DBUG = .ok none ∧
        ∀ name, name.length = 4 → name ≠ DBUG →
          readSection s'.output pos trail' name = .ok (lastNamed name ss)) ∧
    (¬ Strippable ss → stripdebug burst s = .error .End_of_file) := by
  obtain ⟨hok, hfail⟩ := stripdebug_run burst hs hin
  refine ⟨?_, hfail⟩
  intro hstrip
  obtain ⟨s', hrun, hout⟩ := hok hstrip
  have hkept := storable_kept hs
  refine ⟨s', ⟨BitVec.ofInt 32 (kept ss).length, []⟩, trailerOf (kept ss), hrun, ?_⟩
  rw [hout]
  refine ⟨readTrailer_run s.output hkept, readSectionDescriptors_run s.output hkept, ?_⟩
  intro pos
  constructor
  · rw [readSection_run s.output hkept rfl, lastNamed_debug]
  · intro name hlen hname
    rw [readSection_run s.output hkept hlen, lastNamed_kept hname]

/-- Data behind the debugging information are not copied: the tool fails. -/
theorem stripdebug_keeps_data :
    stripdebug (fun _ => 0)
      ⟨executable [] [(DBUG, [1]), (CODE, [2])], 0, [], [], 0⟩ = .error .End_of_file := by
  have h := @stripdebug_keeps ⟨executable [] [(DBUG, [1]), (CODE, [2])], 0, [], [], 0⟩
    [(DBUG, [1]), (CODE, [2])] [] (fun _ => 0) ⟨by decide, by decide, by decide⟩ rfl
  refine h.2 fun hstrip => ?_
  exact absurd (hstrip (CODE, [2]) (by decide) (by decide)) (by decide)

/-- No section of a program is larger than the format can tell: the size of each, with
    the NUL that `read_section` adds, is below 2^31. -/
def Program.Fits (x : Program) : Prop :=
  ∀ s ∈ x.sections ++ x.debugSections, s.2.length + 1 < 2 ^ 31

/-- The names the linker gives to sections, in the order of the file. -/
def sectionNames : List Bytes := [RNTM, CODE, DLPT, DLLS, PRIM, DATA, SYMB, CRCS, DBUG]

/-- Sections that are there or not. -/
theorem optional_names {α : Type} (o : Option α) {f : α → List Sec} {names : List Bytes}
    (h : ∀ a, (f a).map Prod.fst = names) : ((o.elim [] f).map Prod.fst).Sublist names := by
  cases o with
  | none => exact List.nil_sublist _
  | some a => exact (h a) ▸ List.Sublist.refl _

/-- The names of the sections of a program, in their order. -/
theorem Program.names (x : Program) :
    ((x.sections ++ x.debugSections).map Prod.fst).Sublist sectionNames := by
  unfold Program.sections Program.debugSections
  simp only [List.map_append, List.map_cons, List.map_nil]
  have hruntime : ((x.runtime.elim [] fun r => [(RNTM, [r, [0x0A]].flatten)]).map
      Prod.fst).Sublist [RNTM] := optional_names x.runtime fun _ => rfl
  have hdlls : ((x.dlls.elim [] fun d => [(DLPT, (outputStringlist d.1).flatten),
      (DLLS, (outputStringlist d.2).flatten)]).map Prod.fst).Sublist [DLPT, DLLS] :=
    optional_names x.dlls fun _ => rfl
  have hdebug : ((x.debug.elim [] fun d => [(DBUG, d)]).map Prod.fst).Sublist [DBUG] :=
    optional_names x.debug fun _ => rfl
  have hlast : [PRIM, DATA, SYMB, CRCS].Sublist [PRIM, DATA, SYMB, CRCS] := List.Sublist.refl _
  exact (hruntime.append ((hdlls.append hlast).cons₂ CODE)).append hdebug

/-- The names of the sections and their number are what the format can hold. -/
theorem Program.Fits.storable {x : Program} (h : x.Fits) :
    Storable (x.sections ++ x.debugSections) := by
  have hall : ∀ name ∈ sectionNames, name.length = 4 ∧ 0 ∉ name := by decide
  refine ⟨fun s hs => hall s.1 (x.names.subset (List.mem_map_of_mem hs)), h, ?_⟩
  have hlen := x.names.length_le
  rw [List.length_map] at hlen
  have hnine : sectionNames.length = 9 := rfl
  omega

/-- A program that the linker has written, no section of which is larger than the
    format can tell, can be stripped.  Whatever stood in front of its sections, the copy
    holds them all but the debugging information. -/
theorem linked_stripped {x : Program} (hx : x.Fits) (burst : Nat → Nat) (s : Channels) :
    ∃ s', link (linkBytecode x) s = .ok ((), s') ∧
      ∀ t : Channels, t.input = s'.output → ∃ t', stripdebug burst t = .ok ((), t') ∧
        t'.output = executable t.output x.sections := by
  obtain ⟨s', hlink, hout⟩ := link_run (recorded_linkBytecode x) s
  refine ⟨s', hlink, ?_⟩
  intro t ht
  rw [hout] at ht
  obtain ⟨t', hrun, hcopy⟩ := (stripdebug_run burst hx.storable ht).1 (linked_strippable x)
  rw [kept_linked] at hcopy
  exact ⟨t', hrun, hcopy⟩

/-- `STOP` alone, with debugging information. -/
theorem linked_stripped_small :
    ∃ s', link (linkBytecode ⟨none, [], none, [], [1], [], [], some [2]⟩)
        ⟨[], 0, [0x23, 0x21, 0x0A], [], 0⟩ = .ok ((), s') ∧
      ∃ t', stripdebug (fun _ => 0) ⟨s'.output, 0, [], [], 0⟩ = .ok ((), t') ∧
        t'.output = executable [] [(CODE, [143, 0, 0, 0]), (PRIM, []), (DATA, [1]), (SYMB, []),
          (CRCS, [])] := by
  obtain ⟨s', hlink, hstrip⟩ :=
    linked_stripped (x := ⟨none, [], none, [], [1], [], [], some [2]⟩)
      (by unfold Program.Fits; decide) (fun _ => 0) ⟨[], 0, [0x23, 0x21, 0x0A], [], 0⟩
  exact ⟨s', hlink, hstrip ⟨s'.output, 0, [], [], 0⟩ rfl⟩

end CamlStrip
