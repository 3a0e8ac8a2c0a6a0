import Mathlib.Data.List.Induction
import Mathlib.Tactic.Ring

/-! # Bytecode executables — `bytesections.ml` and `startup_byt.c`

    A bytecode executable ends with a table of its sections and a trailer.  The
    linker writes it with `bytesections.ml`; the tools read it back with the same
    module, and the runtime system with `startup_byt.c`.  Both look a section up
    from the end of the file, adding lengths.  What was recorded is what both
    of them read, whatever stands in front of the sections. -/

namespace CamlSections

abbrev Byte := BitVec 8

/-- A string, or a `char *` without its terminating NUL. -/
abbrev Bytes := List Byte

/-! ## Words -/

/-- `caml_putword` -/
def putword (w : BitVec 32) : Bytes :=
  [(w >>> 24).setWidth 8, (w >>> 16).setWidth 8, (w >>> 8).setWidth 8, w.setWidth 8]

/-- `caml_getword`, for the four bytes it gets; `fixup_endianness_trailer` makes
    the same of them. -/
def getword (bs : Bytes) : BitVec 32 := bs.foldl (fun res b => (res <<< 8) + b.setWidth 32) 0

theorem getword_putword (w : BitVec 32) : getword (putword w) = w := by
  apply BitVec.eq_of_toNat_eq
  have hw := w.isLt
  simp only [getword, putword, List.foldl_cons, List.foldl_nil, BitVec.toNat_add,
    BitVec.toNat_shiftLeft, BitVec.toNat_setWidth, BitVec.toNat_ushiftRight, Nat.shiftLeft_eq,
    Nat.shiftRight_eq_div_pow]
  omega

@[simp] theorem length_putword (w : BitVec 32) : (putword w).length = 4 := rfl

/-- A length survives `output_binary_int`, in four bytes. -/
theorem toInt_ofInt_of_lt {n : Nat} (h : n < 2 ^ 31) : (BitVec.ofInt 32 n).toInt = n := by
  rw [BitVec.toInt_ofInt, Int.bmod]
  omega

theorem toNat_ofInt_of_lt {n : Nat} (h : n < 2 ^ 31) : (BitVec.ofInt 32 n).toNat = n := by
  rw [BitVec.toNat_ofInt]
  omega

/-! ## Channels -/

inductive IoError where
  | Sys_error
  | End_of_file
  | Invalid_argument
  | Bad_magic_number
  | Not_found
deriving DecidableEq

/-- A channel to read and one to write, with the references of `bytesections.ml`.
    The table has the sections in reverse order. -/
structure Channels where
  input : Bytes
  pos : Nat
  output : Bytes
  sectionTable : List (Bytes × Int)
  sectionBeginning : Int

abbrev M := StateT Channels (Except IoError)

/-- `pos_out` -/
def posOut : M Int := do return (← get).output.length

/-- `output_string` -/
def outputString (bs : Bytes) : M Unit := modify fun s => { s with output := s.output ++ bs }

/-- `output_binary_int` -/
def outputBinaryInt (n : Int) : M Unit := outputString (putword (BitVec.ofInt 32 n))

/-- `in_channel_length` -/
def inChannelLength : M Int := do return (← get).input.length

/-- `seek_in`; a position behind the end is allowed. -/
def seekIn (pos : Int) : M Unit :=
  if pos < 0 then throw .Sys_error else modify fun s => { s with pos := pos.toNat }

/-- `really_input_string` -/
def reallyInputString (n : Int) : M Bytes :=
  if n < 0 then throw .Invalid_argument
  else do
    let s ← get
    if s.input.length < s.pos + n.toNat then throw .End_of_file
    else do
      set { s with pos := s.pos + n.toNat }
      return (s.input.drop s.pos).take n.toNat

/-- `input_binary_int`, with the sign of the four bytes -/
def inputBinaryInt : M Int := do return (getword (← reallyInputString 4)).toInt

/-! ## `bytesections.ml` -/

/-- `Config.exec_magic_number`, which is `EXEC_MAGIC` of `exec.h`. -/
def execMagicNumber : Bytes :=
  [0x43, 0x61, 0x6D, 0x6C, 0x31, 0x39, 0x39, 0x39, 0x58, 0x30, 0x33, 0x31]

/-- `init_record` -/
def initRecord : M Unit := do
  let pos ← posOut
  modify fun s => { s with sectionBeginning := pos, sectionTable := [] }

/-- `record` -/
def record (name : Bytes) : M Unit := do
  let pos ← posOut
  modify fun s =>
    { s with
      sectionTable := (name, pos - s.sectionBeginning) :: s.sectionTable
      sectionBeginning := pos }

/-- The `List.iter` of `write_toc_and_trailer`. -/
def writeToc : List (Bytes × Int) → M Unit
  | [] => return ()
  | (name, len) :: rem => do
      outputString name
      outputBinaryInt len
      writeToc rem

/-- `write_toc_and_trailer` -/
def writeTocAndTrailer : M Unit := do
  let s ← get
  writeToc s.sectionTable.reverse
  outputBinaryInt s.sectionTable.length
  outputString execMagicNumber
  modify fun s => { s with sectionTable := [] }

/-- The loop of `read_toc`. -/
def readEntries : Nat → M Unit
  | 0 => return ()
  | n + 1 => do
      let name ← reallyInputString 4
      let len ← inputBinaryInt
      modify fun s => { s with sectionTable := (name, len) :: s.sectionTable }
      readEntries n

/-- `read_toc` -/
def readToc : M Unit := do
  let posTrailer := (← inChannelLength) - 16
  seekIn posTrailer
  let numSections ← inputBinaryInt
  let header ← reallyInputString execMagicNumber.length
  if header ≠ execMagicNumber then throw .Bad_magic_number
  seekIn (posTrailer - 8 * numSections)
  modify fun s => { s with sectionTable := [] }
  readEntries numSections.toNat

/-- `toc` -/
def toc : M (List (Bytes × Int)) := do return (← get).sectionTable.reverse

/-- `seek_sec` of `seek_section` -/
def seekSec (name : Bytes) : Int → List (Bytes × Int) → M Int
  | _, [] => throw .Not_found
  | currOfs, (n, len) :: rem =>
      if n = name then do
        seekIn (currOfs - len)
        return len
      else seekSec name (currOfs - len) rem

/-- `seek_section` -/
def seekSection (name : Bytes) : M Int := do
  let s ← get
  seekSec name ((← inChannelLength) - 16 - 8 * s.sectionTable.length) s.sectionTable

/-- `read_section_string` -/
def readSectionString (name : Bytes) : M Bytes := do reallyInputString (← seekSection name)

/-- `pos_first_section` -/
def posFirstSection : M Int := do
  let s ← get
  return (← inChannelLength) - 16 - 8 * s.sectionTable.length -
    s.sectionTable.foldl (fun total e => total + e.2) 0

/-! ## `startup_byt.c` -/

inductive LoadError where
  | BAD_BYTECODE
  | WRONG_MAGIC
  /-- `caml_fatal_error`, or no memory -/
  | fatal
deriving DecidableEq

/-- `struct exec_trailer` -/
structure ExecTrailer where
  numSections : BitVec 32
  sections : List (Bytes × BitVec 32)

/-- `read_trailer` -/
def readTrailer (file : Bytes) : Except LoadError ExecTrailer :=
  if file.length < 16 then .error .BAD_BYTECODE
  else
    let trail := file.drop (file.length - 16)
    if trail.drop 4 = execMagicNumber then .ok ⟨getword (trail.take 4), []⟩
    else .error .WRONG_MAGIC

/-- The descriptors in `n * 8` bytes. -/
def descriptors : Nat → Bytes → List (Bytes × BitVec 32)
  | 0, _ => []
  | n + 1, bs => (bs.take 4, getword ((bs.drop 4).take 4)) :: descriptors n (bs.drop 8)

/-- `caml_read_section_descriptors` -/
def readSectionDescriptors (file : Bytes) (trail : ExecTrailer) : Except LoadError ExecTrailer :=
  let tocSize := (trail.numSections * 8).toInt
  if tocSize < 0 ∨ file.length < 16 + tocSize then .error .fatal
  else
    .ok { trail with
      sections := descriptors trail.numSections.toNat
        (file.drop (file.length - (16 + tocSize).toNat)) }

/-- `strncmp(s, t, n) == 0`; both strings end with a NUL. -/
def sameName : Nat → Bytes → Bytes → Bool
  | 0, _, _ => true
  | _ + 1, [], [] => true
  | _ + 1, [], y :: _ => y = 0
  | _ + 1, x :: _, [] => x = 0
  | n + 1, x :: xs, y :: ys => x = y && (x = 0 || sameName n xs ys)

/-- The loop of `caml_seek_optional_section`, on the descriptors from the last
    one on: how far the section starts from the end of the file, and its length. -/
def seekFromEnd (name : Bytes) : Nat → List (Bytes × BitVec 32) → Option (Nat × BitVec 32)
  | _, [] => none
  | ofs, (n, len) :: rem =>
      if sameName 4 n name then some (ofs + len.toNat, len)
      else seekFromEnd name (ofs + len.toNat) rem

/-- `caml_seek_optional_section`; when `lseek` fails, `pos` stays. -/
def seekOptionalSection (file : Bytes) (pos : Nat) (trail : ExecTrailer) (name : Bytes) :
    Int × Nat :=
  match seekFromEnd name (16 + trail.numSections * 8).toNat trail.sections.reverse with
  | some (ofs, len) => (len.toInt, if ofs ≤ file.length then file.length - ofs else pos)
  | none => (-1, pos)

/-- `read_section`, without the NUL it adds. -/
def readSection (file : Bytes) (pos : Nat) (trail : ExecTrailer) (name : Bytes) :
    Except LoadError (Option Bytes) :=
  let (len, pos) := seekOptionalSection file pos trail name
  if len = -1 then .ok none
  else if len < 0 then .error .fatal
  else if file.length < pos + len.toNat then .error .fatal
  else .ok (some ((file.drop pos).take len.toNat))

/-! ## The format -/

/-- A section: its name, and the data. -/
abbrev Sec := Bytes × Bytes

/-- The data of some sections. -/
def dataOf (ss : List Sec) : Bytes := ss.flatMap Prod.snd

/-- Their entries in the table. -/
def entriesOf (ss : List Sec) : Bytes :=
  ss.flatMap fun s => s.1 ++ putword (BitVec.ofInt 32 s.2.length)

/-- An executable with these sections behind `pre`. -/
def executable (pre : Bytes) (ss : List Sec) : Bytes :=
  pre ++ (dataOf ss ++ (entriesOf ss ++ (putword (BitVec.ofInt 32 ss.length) ++ execMagicNumber)))

/-- The table that `read_toc` and `record` make, the first section first. -/
def tocOf (ss : List Sec) : List (Bytes × Int) := ss.map fun s => (s.1, (s.2.length : Int))

/-- The data of the last section with this name. -/
def lastNamed (name : Bytes) (ss : List Sec) : Option Bytes :=
  (ss.reverse.find? (·.1 = name)).map Prod.snd

/-- What the format can hold: names of four bytes other than NUL, and sizes that
    fit a signed word, with the NUL that `read_section` adds. -/
structure Storable (ss : List Sec) : Prop where
  names : ∀ s ∈ ss, s.1.length = 4 ∧ 0 ∉ s.1
  sizes : ∀ s ∈ ss, s.2.length + 1 < 2 ^ 31
  count : 16 + 8 * ss.length < 2 ^ 31

variable {ss ts : List Sec} {s : Channels}

theorem Storable.sublist (h : Storable ss) (hs : ts.Sublist ss) : Storable ts := by
  refine ⟨fun u hu => h.names u (hs.subset hu), fun u hu => h.sizes u (hs.subset hu), ?_⟩
  have hc := h.count
  have hl := hs.length_le
  omega

theorem entriesOf_cons (t : Sec) (ss : List Sec) :
    entriesOf (t :: ss) = t.1 ++ (putword (BitVec.ofInt 32 t.2.length) ++ entriesOf ss) := by
  rw [entriesOf, List.flatMap_cons, List.append_assoc]
  rfl

theorem entriesOf_length (h : ∀ s ∈ ss, s.1.length = 4) :
    (entriesOf ss).length = 8 * ss.length := by
  induction ss with
  | nil => rfl
  | cons s ss ih =>
      have hs := h s (List.mem_cons_self ..)
      have hrest := ih fun t ht => h t (List.mem_cons_of_mem _ ht)
      rw [entriesOf_cons, List.length_append, List.length_append, hs, hrest, length_putword,
        List.length_cons]
      omega

theorem dataOf_concat (ss : List Sec) (t : Sec) : dataOf (ss ++ [t]) = dataOf ss ++ t.2 := by
  rw [dataOf, List.flatMap_append, List.flatMap_singleton]
  rfl

theorem lastNamed_concat (name : Bytes) (ss : List Sec) (s : Sec) :
    lastNamed name (ss ++ [s]) = if s.1 = name then some s.2 else lastNamed name ss := by
  unfold lastNamed
  rw [List.reverse_append, List.reverse_singleton, List.singleton_append, List.find?_cons]
  by_cases hs : s.1 = name
  · simp [hs]
  · simp [hs]

theorem lastNamed_some {name d : Bytes} (h : lastNamed name ss = some d) : (name, d) ∈ ss := by
  obtain ⟨s, hs, rfl⟩ := Option.map_eq_some_iff.mp h
  have hn : s.1 = name := by simpa using List.find?_some hs
  rw [← hn]
  exact List.mem_reverse.mp (List.mem_of_find?_eq_some hs)

/-! ## Writing -/

theorem run_bind {α β : Type} {x : M α} {f : α → M β} {s s1 : Channels} {a : α}
    (h : x s = .ok (a, s1)) : (x >>= f) s = f a s1 := by
  show (x s >>= fun p => f p.1 p.2) = _
  rw [h]
  rfl

theorem run_error {α β : Type} {x : M α} {f : α → M β} {s : Channels} {e : IoError}
    (h : x s = .error e) : (x >>= f) s = .error e := by
  show (x s >>= fun p => f p.1 p.2) = _
  rw [h]
  rfl

/-- What a program does between `init_record` and `write_toc_and_trailer`. -/
inductive Write where
  | output (bs : Bytes)
  | record (name : Bytes)

/-- Do it. -/
def writes : List Write → M Unit
  | [] => return ()
  | .output bs :: ws => do
      outputString bs
      writes ws
  | .record name :: ws => do
      record name
      writes ws

/-- The sections recorded, when `open` has been written since the last of them,
    and what is written after the last one. -/
def recorded : Bytes → List Write → List Sec × Bytes
  | d, [] => ([], d)
  | d, .output bs :: ws => recorded (d ++ bs) ws
  | d, .record name :: ws => ((name, d) :: (recorded [] ws).1, (recorded [] ws).2)

/-- What is written is in the file, and what is recorded in the table. -/
theorem writes_run (ws : List Write) (d : Bytes) (ss : List Sec) {out : Bytes}
    (hout : s.output = out ++ d) (hb : s.sectionBeginning = out.length)
    (ht : s.sectionTable = (tocOf ss).reverse) :
    writes ws s = .ok ((), { s with
      output := out ++ (dataOf (recorded d ws).1 ++ (recorded d ws).2)
      sectionTable := (tocOf (ss ++ (recorded d ws).1)).reverse
      sectionBeginning := out.length + (dataOf (recorded d ws).1).length }) := by
  induction ws generalizing d ss out s with
  | nil =>
      obtain ⟨input, pos, output, table, start⟩ := s
      dsimp only at hout hb ht
      subst hout hb ht
      show Except.ok ((), (⟨input, pos, out ++ d, (tocOf ss).reverse, out.length⟩ : Channels)) = _
      simp [recorded, dataOf]
  | cons w ws ih =>
      cases w with
      | output bs =>
          rw [writes, run_bind (a := ()) (x := outputString bs) rfl]
          have hout' : s.output ++ bs = out ++ (d ++ bs) := by rw [hout, List.append_assoc]
          exact ih (d ++ bs) ss hout' hb ht
      | record name =>
          rw [writes, run_bind (a := ()) (x := record name) rfl,
            @ih _ [] (ss ++ [(name, d)]) (out ++ d) (by rw [List.append_nil, hout]) ?_ ?_]
          · simp only [recorded, dataOf, List.flatMap_cons, List.append_assoc, List.length_append,
              List.cons_append, List.nil_append]
            congr 3
            push_cast
            ring
          · show (s.output.length : Int) = _
            rw [hout]
          · show (name, (s.output.length : Int) - s.sectionBeginning) :: s.sectionTable = _
            rw [hout, hb, ht, tocOf, tocOf, List.map_append, List.reverse_append,
              List.length_append]
            push_cast
            simp

theorem writeToc_run (ss : List Sec) (s : Channels) :
    writeToc (tocOf ss) s = .ok ((), { s with output := s.output ++ entriesOf ss }) := by
  induction ss generalizing s with
  | nil =>
      show Except.ok ((), s) = _
      simp [entriesOf]
  | cons t ss ih =>
      show writeToc ((t.1, (t.2.length : Int)) :: tocOf ss) s = _
      rw [writeToc, run_bind (a := ()) (x := outputString t.1) rfl,
        run_bind (a := ()) (x := outputBinaryInt t.2.length) rfl, ih]
      simp only [entriesOf, List.flatMap_cons, List.append_assoc]

/-- The table and the trailer go behind the data. -/
theorem writeTocAndTrailer_run (ht : s.sectionTable = (tocOf ss).reverse) :
    ∃ s', writeTocAndTrailer s = .ok ((), s') ∧
      s'.output = s.output ++
        (entriesOf ss ++ (putword (BitVec.ofInt 32 ss.length) ++ execMagicNumber)) := by
  unfold writeTocAndTrailer
  rw [run_bind (x := (get : M Channels)) rfl, ht, List.reverse_reverse,
    run_bind (writeToc_run ss _), run_bind (a := ()) (x := outputBinaryInt _) rfl,
    run_bind (a := ()) (x := outputString _) rfl]
  refine ⟨_, rfl, ?_⟩
  show s.output ++ entriesOf ss ++ _ ++ _ = _
  rw [List.length_reverse, tocOf, List.length_map]
  simp only [List.append_assoc]

/-- The linker: whatever is in the file already, then the sections and the trailer. -/
def link (ws : List Write) : M Unit := do
  initRecord
  writes ws
  writeTocAndTrailer

/-- What is written is an executable with the sections that were recorded. -/
theorem link_run {ws : List Write} (hws : recorded [] ws = (ss, [])) (s : Channels) :
    ∃ s', link ws s = .ok ((), s') ∧ s'.output = executable s.output ss := by
  have hw := @writes_run { s with sectionBeginning := s.output.length, sectionTable := [] } ws []
    [] s.output (List.append_nil _).symm rfl rfl
  rw [hws] at hw
  obtain ⟨s', hwrite, hout⟩ := @writeTocAndTrailer_run ss { s with
    output := s.output ++ (dataOf ss ++ [])
    sectionTable := (tocOf ss).reverse
    sectionBeginning := s.output.length + (dataOf ss).length } rfl
  refine ⟨s', ?_, ?_⟩
  · unfold link
    rw [run_bind (a := ()) (x := initRecord) rfl, run_bind hw]
    exact hwrite
  · rw [hout, executable, List.append_nil, List.append_assoc]

/-! ## Reading, in OCaml -/

theorem read_run {a b c : Bytes} {n : Int} (hin : s.input = a ++ (b ++ c)) (hpos : s.pos = a.length)
    (hn : n = b.length) :
    reallyInputString n s = .ok (b, { s with pos := a.length + b.length }) := by
  subst hn
  have hlen : ¬ s.input.length < s.pos + (b.length : Int).toNat := by
    rw [hin, hpos, List.length_append, List.length_append]
    omega
  unfold reallyInputString
  rw [if_neg (by omega), run_bind (x := (get : M Channels)) rfl, if_neg hlen]
  show Except.ok (((s.input.drop s.pos).take (b.length : Int).toNat), _) = _
  rw [hin, hpos, List.drop_left, Int.toNat_natCast, List.take_left]

theorem inputBinaryInt_run {a c : Bytes} {w : BitVec 32} (hin : s.input = a ++ (putword w ++ c))
    (hpos : s.pos = a.length) :
    inputBinaryInt s = .ok (w.toInt, { s with pos := a.length + 4 }) := by
  have hread : reallyInputString 4 s = .ok (putword w, { s with pos := a.length + 4 }) :=
    read_run hin hpos rfl
  unfold inputBinaryInt
  rw [run_bind hread, getword_putword]
  rfl

theorem seekIn_run {pos : Int} {n : Nat} (h : pos = n) (s : Channels) :
    seekIn pos s = .ok ((), { s with pos := n }) := by
  subst h
  unfold seekIn
  rw [if_neg (by omega)]
  rfl

/-- The table is read back, entry by entry. -/
theorem readEntries_run {ss : List Sec} {a c : Bytes} (h : Storable ss)
    (hin : s.input = a ++ (entriesOf ss ++ c)) (hpos : s.pos = a.length) :
    readEntries ss.length s = .ok ((), { s with
      pos := a.length + (entriesOf ss).length
      sectionTable := (tocOf ss).reverse ++ s.sectionTable }) := by
  induction ss generalizing a s with
  | nil =>
      obtain ⟨input, pos, output, table, start⟩ := s
      dsimp only at hpos
      subst hpos
      rfl
  | cons t ss ih =>
      have hrest := h.sublist (List.sublist_cons_self ..)
      have hname := (h.names t (List.mem_cons_self ..)).1
      have hsize := h.sizes t (List.mem_cons_self ..)
      rw [entriesOf_cons, List.append_assoc, List.append_assoc] at hin
      rw [List.length_cons, readEntries, run_bind (read_run hin hpos (by rw [hname]; rfl))]
      have hin' : s.input = (a ++ t.1) ++ (putword (BitVec.ofInt 32 t.2.length) ++
          (entriesOf ss ++ c)) := by rw [hin, List.append_assoc]
      rw [run_bind (inputBinaryInt_run (s := { s with pos := a.length + t.1.length }) hin'
        (List.length_append ..).symm), toInt_ofInt_of_lt (by omega)]
      rw [run_bind (a := PUnit.unit) (x := modify _) rfl,
        ih (a := a ++ (t.1 ++ putword (BitVec.ofInt 32 t.2.length))) hrest ?_ ?_]
      · rw [entriesOf_cons]
        simp only [List.length_append, length_putword, tocOf, List.map_cons, List.reverse_cons,
          List.append_assoc, List.singleton_append, Nat.add_assoc]
      · show s.input = _
        rw [hin]
        simp only [List.append_assoc]
      · show (a ++ t.1).length + 4 = _
        simp only [List.length_append, length_putword, Nat.add_assoc]

/-- Where the parts of an executable are. -/
theorem executable_length (pre : Bytes) (h : Storable ss) :
    (executable pre ss).length = pre.length + (dataOf ss).length + 8 * ss.length + 16 := by
  have hm : execMagicNumber.length = 12 := rfl
  rw [executable]
  simp only [List.length_append, entriesOf_length fun s hs => (h.names s hs).1, length_putword, hm]
  omega

/-- An executable, cut in front of its trailer. -/
theorem executable_trailer (pre : Bytes) (ss : List Sec) :
    executable pre ss = (pre ++ (dataOf ss ++ entriesOf ss)) ++
      (putword (BitVec.ofInt 32 ss.length) ++ execMagicNumber) := by
  rw [executable]
  simp only [List.append_assoc]

/-- An executable, cut in front of the table of its sections. -/
theorem executable_table (pre : Bytes) (ss : List Sec) :
    executable pre ss = (pre ++ dataOf ss) ++
      (entriesOf ss ++ (putword (BitVec.ofInt 32 ss.length) ++ execMagicNumber)) := by
  rw [executable]
  simp only [List.append_assoc]

/-- The reader gets the table of the writer. -/
theorem readToc_run {pre : Bytes} (h : Storable ss) (hin : s.input = executable pre ss) :
    ∃ p, readToc s = .ok ((), { s with pos := p, sectionTable := (tocOf ss).reverse }) := by
  have hlen := executable_length pre h
  have hent := entriesOf_length fun s hs => (h.names s hs).1
  have hcount := h.count
  have hw : (BitVec.ofInt 32 ss.length).toInt = ss.length := toInt_ofInt_of_lt (by omega)
  -- the trailer, and the table in front of it
  have h1 : s.input = (pre ++ (dataOf ss ++ entriesOf ss)) ++
      (putword (BitVec.ofInt 32 ss.length) ++ execMagicNumber) := by
    rw [hin, executable_trailer]
  have h2 : s.input = (pre ++ dataOf ss) ++ (entriesOf ss ++
      (putword (BitVec.ofInt 32 ss.length) ++ execMagicNumber)) := by
    rw [hin, executable_table]
  have hpos : (s.input.length : Int) - 16 = (pre ++ (dataOf ss ++ entriesOf ss)).length := by
    rw [hin, hlen]
    simp only [List.length_append, hent]
    push_cast
    omega
  unfold readToc
  rw [run_bind (a := (s.input.length : Int)) (x := inChannelLength) rfl]
  dsimp only
  rw [run_bind (seekIn_run hpos s), run_bind (inputBinaryInt_run (s := { s with
    pos := (pre ++ (dataOf ss ++ entriesOf ss)).length }) h1 rfl), hw]
  have h3 : s.input = (pre ++ (dataOf ss ++ entriesOf ss) ++ putword (BitVec.ofInt 32 ss.length)) ++
      (execMagicNumber ++ []) := by
    rw [h1, List.append_nil, List.append_assoc (pre ++ (dataOf ss ++ entriesOf ss))]
  have hl : (pre ++ (dataOf ss ++ entriesOf ss)).length + 4 =
      (pre ++ (dataOf ss ++ entriesOf ss) ++ putword (BitVec.ofInt 32 ss.length)).length := by
    rw [@List.length_append _ (pre ++ (dataOf ss ++ entriesOf ss)), length_putword]
  rw [run_bind (read_run (s := { s with pos := (pre ++ (dataOf ss ++ entriesOf ss)).length + 4 })
    h3 hl rfl), if_neg (fun hne => hne rfl)]
  have hback : (s.input.length : Int) - 16 - 8 * ss.length = (pre ++ dataOf ss).length := by
    rw [hin, hlen]
    simp only [List.length_append]
    push_cast
    omega
  have hentries := @readEntries_run { s with pos := (pre ++ dataOf ss).length, sectionTable := [] }
    ss _ _ h h2 rfl
  rw [List.append_nil] at hentries
  rw [run_bind (seekIn_run hback _), run_bind (a := PUnit.unit) (x := modify _) rfl,
    Int.toNat_natCast]
  exact ⟨_, hentries⟩

/-- The table is searched from its end, the lengths leading to the data. -/
theorem seekSec_run {pre rest : Bytes} (name : Bytes) {curr : Int}
    (hin : s.input = pre ++ (dataOf ss ++ rest)) (hc : curr = pre.length + (dataOf ss).length) :
    (lastNamed name ss = none → seekSec name curr (tocOf ss).reverse s = .error .Not_found) ∧
      ∀ d, lastNamed name ss = some d → ∃ a c, s.input = a ++ (d ++ c) ∧
        seekSec name curr (tocOf ss).reverse s = .ok (d.length, { s with pos := a.length }) := by
  induction ss using List.reverseRecOn generalizing rest curr with
  | nil => exact ⟨fun _ => rfl, fun d hd => by cases hd⟩
  | append_singleton ss t ih =>
      have htoc : (tocOf (ss ++ [t])).reverse =
          (t.1, (t.2.length : Int)) :: (tocOf ss).reverse := by
        simp [tocOf]
      rw [dataOf_concat, List.append_assoc] at hin
      rw [dataOf_concat, List.length_append] at hc
      have hc' : curr - t.2.length = pre.length + (dataOf ss).length := by
        rw [hc]
        push_cast
        omega
      rw [lastNamed_concat, htoc, seekSec]
      by_cases ht : t.1 = name
      · rw [if_pos ht, if_pos ht]
        refine ⟨fun hn => (by cases hn), ?_⟩
        rintro d ⟨⟩
        refine ⟨pre ++ dataOf ss, rest, by rw [hin, List.append_assoc], ?_⟩
        have hpos : curr - t.2.length = (pre ++ dataOf ss).length := by
          rw [hc', List.length_append]
          push_cast
          rfl
        rw [run_bind (seekIn_run hpos s)]
        rfl
      · rw [if_neg ht, if_neg ht]
        exact ih hin hc'

theorem foldl_toc (ss : List Sec) (n : Int) :
    (tocOf ss).foldl (fun total e => total + e.2) n = n + (dataOf ss).length := by
  induction ss generalizing n with
  | nil => simp [tocOf, dataOf]
  | cons t ss ih =>
      have hd : (dataOf (t :: ss)).length = t.2.length + (dataOf ss).length := by
        simp [dataOf]
      show (tocOf ss).foldl _ (n + (t.2.length : Int)) = _
      rw [ih, hd]
      push_cast
      omega

theorem foldl_toc_reverse (ss : List Sec) :
    (tocOf ss).reverse.foldl (fun total e => total + e.2) 0 = ((dataOf ss).length : Int) := by
  rw [List.Perm.foldl_eq' (List.reverse_perm _) (fun x _ y _ z => by ring) 0, foldl_toc, zero_add]

/-- A channel on an executable whose table has been read. -/
structure Read (pre : Bytes) (ss : List Sec) (s : Channels) : Prop where
  input : s.input = executable pre ss
  table : s.sectionTable = (tocOf ss).reverse

theorem Read.behind {pre : Bytes} (h : Read pre ss s) (hs : Storable ss) :
    (s.input.length : Int) - 16 - 8 * s.sectionTable.length = pre.length + (dataOf ss).length := by
  rw [h.input, executable_length pre hs, h.table, List.length_reverse, tocOf, List.length_map]
  push_cast
  omega

theorem posFirstSection_run {pre : Bytes} (h : Read pre ss s) (hs : Storable ss) :
    posFirstSection s = .ok ((pre.length : Int), s) := by
  have hv : (s.input.length : Int) - 16 - 8 * s.sectionTable.length -
      s.sectionTable.foldl (fun total e => total + e.2) 0 = pre.length := by
    rw [h.behind hs, h.table, foldl_toc_reverse]
    omega
  show Except.ok (_, s) = _
  rw [hv]

/-- A section is found by its name, the last one with it. -/
theorem readSectionString_run {pre : Bytes} (h : Read pre ss s) (hs : Storable ss) (name : Bytes) :
    (readSectionString name).run' s =
      match lastNamed name ss with
      | some d => .ok d
      | none => .error .Not_found := by
  obtain ⟨hnone, hsome⟩ := seekSec_run (s := s) name h.input (h.behind hs)
  have hseek : seekSection name s = seekSec name
      ((s.input.length : Int) - 16 - 8 * s.sectionTable.length) s.sectionTable s := rfl
  rw [h.table] at hseek
  cases hl : lastNamed name ss with
  | none =>
      have hn := hnone hl
      rw [← h.table] at hn
      show Except.map _ (seekSection name s >>= _) = _
      rw [show seekSection name s = .error .Not_found from hn]
      rfl
  | some d =>
      obtain ⟨a, c, hin, hd⟩ := hsome d hl
      rw [← h.table] at hd
      have hrun : readSectionString name s = .ok (d, { s with pos := a.length + d.length }) := by
        unfold readSectionString
        rw [run_bind (show seekSection name s = _ from hd)]
        exact read_run (s := { s with pos := a.length }) hin rfl rfl
      show Except.map _ (readSectionString name s) = _
      rw [hrun]
      rfl

/-! ## Reading, in C -/

/-- The descriptors of some sections. -/
def sectionsOf (ss : List Sec) : List (Bytes × BitVec 32) :=
  ss.map fun s => (s.1, BitVec.ofInt 32 s.2.length)

/-- The runtime system decodes the table entry by entry. -/
theorem descriptors_entries (h : Storable ss) (c : Bytes) :
    descriptors ss.length (entriesOf ss ++ c) = sectionsOf ss := by
  induction ss with
  | nil => rfl
  | cons t ss ih =>
      have hname := (h.names t (List.mem_cons_self ..)).1
      have hrest := ih (h.sublist (List.sublist_cons_self ..))
      have hboth : (t.1 ++ putword (BitVec.ofInt 32 t.2.length)).length = 8 := by
        rw [List.length_append, hname, length_putword]
      rw [entriesOf_cons, List.append_assoc, List.append_assoc, List.length_cons, descriptors,
        List.take_left' hname, List.drop_left' hname, List.take_left' (length_putword _),
        getword_putword, ← List.append_assoc, List.drop_left' hboth, hrest]
      rfl

/-- Names of one length, without a NUL, are compared whole. -/
theorem sameName_iff {k : Nat} {xs ys : Bytes} (hx : xs.length = k) (hy : ys.length = k)
    (h0 : 0 ∉ xs) : sameName k xs ys = true ↔ xs = ys := by
  induction k generalizing xs ys with
  | zero =>
      rw [List.length_eq_zero_iff.mp hx, List.length_eq_zero_iff.mp hy]
      exact iff_of_true rfl rfl
  | succ k ih =>
      obtain ⟨x, xs, rfl⟩ := List.exists_cons_of_length_eq_add_one hx
      obtain ⟨y, ys, rfl⟩ := List.exists_cons_of_length_eq_add_one hy
      have hx0 : x ≠ 0 := fun h => h0 (h ▸ List.mem_cons_self ..)
      have hxs : (0 : Byte) ∉ xs := fun h => h0 (List.mem_cons_of_mem _ h)
      have hrest := ih (Nat.succ.inj hx) (Nat.succ.inj hy) hxs
      simp only [sameName, Bool.and_eq_true, Bool.or_eq_true, decide_eq_true_eq, hx0, false_or,
        hrest, List.cons.injEq]

/-- The descriptors are searched from the last one, as the table is. -/
theorem seekFromEnd_run {pre rest file name : Bytes} {ofs : Nat} (h : Storable ss)
    (hname : name.length = 4) (hin : file = pre ++ (dataOf ss ++ rest)) (hofs : ofs = rest.length) :
    (lastNamed name ss = none → seekFromEnd name ofs (sectionsOf ss).reverse = none) ∧
      ∀ d, lastNamed name ss = some d → ∃ a c, file = a ++ (d ++ c) ∧
        seekFromEnd name ofs (sectionsOf ss).reverse =
          some (d.length + c.length, BitVec.ofInt 32 d.length) := by
  induction ss using List.reverseRecOn generalizing rest ofs with
  | nil => exact ⟨fun _ => rfl, fun d hd => by cases hd⟩
  | append_singleton ss t ih =>
      have hmem : t ∈ ss ++ [t] := List.mem_append_right _ (List.mem_singleton.mpr rfl)
      obtain ⟨hlen, h0⟩ := h.names t hmem
      have hsize := h.sizes t hmem
      have hsame := sameName_iff hlen hname h0
      have hsec : (sectionsOf (ss ++ [t])).reverse =
          (t.1, BitVec.ofInt 32 t.2.length) :: (sectionsOf ss).reverse := by
        simp [sectionsOf]
      rw [dataOf_concat, List.append_assoc] at hin
      rw [lastNamed_concat, hsec, seekFromEnd, toNat_ofInt_of_lt (by omega)]
      have hofs' : ofs + t.2.length = (t.2 ++ rest).length := by
        rw [hofs, List.length_append, Nat.add_comm]
      by_cases ht : t.1 = name
      · rw [if_pos ht, if_pos (hsame.mpr ht)]
        refine ⟨fun hn => (by cases hn), ?_⟩
        rintro d ⟨⟩
        refine ⟨pre ++ dataOf ss, rest, by rw [hin, List.append_assoc], ?_⟩
        rw [hofs', List.length_append]
      · rw [if_neg ht, if_neg fun hs => ht (hsame.mp hs)]
        exact ih (h.sublist (List.sublist_append_left ..)) hin hofs'

/-- The trailer that the runtime system has when it looks for sections. -/
def trailerOf (ss : List Sec) : ExecTrailer := ⟨BitVec.ofInt 32 ss.length, sectionsOf ss⟩

/-- The trailer is at the end of the file. -/
theorem readTrailer_run (pre : Bytes) (h : Storable ss) :
    readTrailer (executable pre ss) = .ok ⟨BitVec.ofInt 32 ss.length, []⟩ := by
  have hlen := executable_length pre h
  have hent := entriesOf_length fun s hs => (h.names s hs).1
  have hback : (executable pre ss).length - 16 = (pre ++ (dataOf ss ++ entriesOf ss)).length := by
    rw [hlen]
    simp only [List.length_append, hent]
    omega
  unfold readTrailer
  rw [if_neg (by omega), hback]
  dsimp only
  rw [executable_trailer, List.drop_left, List.drop_left' (length_putword _), if_pos rfl,
    List.take_left' (length_putword _), getword_putword]

theorem toNat_tocSize (h : Storable ss) :
    (BitVec.ofInt 32 ss.length * 8).toNat = 8 * ss.length := by
  have hcount := h.count
  have h8 : (8 : BitVec 32).toNat = 8 := rfl
  rw [BitVec.toNat_mul, toNat_ofInt_of_lt (by omega), h8]
  omega

/-- The runtime system gets the table of the writer. -/
theorem readSectionDescriptors_run (pre : Bytes) (h : Storable ss) :
    readSectionDescriptors (executable pre ss) ⟨BitVec.ofInt 32 ss.length, []⟩ =
      .ok (trailerOf ss) := by
  have hlen := executable_length pre h
  have hcount := h.count
  have hn : (BitVec.ofInt 32 ss.length).toNat = ss.length := toNat_ofInt_of_lt (by omega)
  have hnat := toNat_tocSize h
  have hsize : (BitVec.ofInt 32 ss.length * 8).toInt = 8 * ss.length := by
    rw [BitVec.toInt_eq_toNat_of_lt (by omega), hnat]
    push_cast
    rfl
  have hback : (executable pre ss).length - (16 + 8 * (ss.length : Int)).toNat =
      (pre ++ dataOf ss).length := by
    rw [hlen, List.length_append]
    omega
  unfold readSectionDescriptors
  dsimp only
  rw [hsize, if_neg (by rw [hlen]; omega), hback, hn, executable_table, List.drop_left,
    descriptors_entries h]
  rfl

/-- A section is looked for from the end of the table. -/
theorem seekOptionalSection_run {name : Bytes} (pre : Bytes) (h : Storable ss)
    (hname : name.length = 4) (pos : Nat) :
    (lastNamed name ss = none →
      seekOptionalSection (executable pre ss) pos (trailerOf ss) name = (-1, pos)) ∧
    ∀ d, lastNamed name ss = some d → ∃ a c, executable pre ss = a ++ (d ++ c) ∧
      seekOptionalSection (executable pre ss) pos (trailerOf ss) name =
        ((d.length : Int), a.length) := by
  have hcount := h.count
  have hent := entriesOf_length fun s hs => (h.names s hs).1
  have hm : execMagicNumber.length = 12 := rfl
  have h16 : (16 : BitVec 32).toNat = 16 := rfl
  have hofs : (16 + BitVec.ofInt 32 ss.length * 8).toNat =
      (entriesOf ss ++ (putword (BitVec.ofInt 32 ss.length) ++ execMagicNumber)).length := by
    rw [BitVec.toNat_add, toNat_tocSize h, h16]
    simp only [List.length_append, hent, length_putword, hm]
    omega
  obtain ⟨hnone, hsome⟩ := @seekFromEnd_run ss pre _ _ name _ h hname rfl hofs
  unfold seekOptionalSection trailerOf
  dsimp only
  constructor
  · intro hl
    rw [hnone hl]
  · intro d hl
    obtain ⟨a, c, hin, hseek⟩ := hsome d hl
    have hsize := h.sizes _ (lastNamed_some hl)
    have hlen : (executable pre ss).length = a.length + (d.length + c.length) := by
      rw [executable, hin, List.length_append, List.length_append]
    refine ⟨a, c, hin, ?_⟩
    rw [hseek]
    dsimp only at hsize ⊢
    rw [hlen, toInt_ofInt_of_lt (by omega), if_pos (by omega), Nat.add_sub_cancel]

/-- The runtime system reads the last section with the name. -/
theorem readSection_run {name : Bytes} (pre : Bytes) (h : Storable ss) (hname : name.length = 4)
    (pos : Nat) :
    readSection (executable pre ss) pos (trailerOf ss) name = .ok (lastNamed name ss) := by
  obtain ⟨hnone, hsome⟩ := seekOptionalSection_run pre h hname pos
  unfold readSection
  cases hl : lastNamed name ss with
  | none =>
      rw [hnone hl]
      rfl
  | some d =>
      obtain ⟨a, c, hin, hseek⟩ := hsome d hl
      have hlen : (executable pre ss).length = a.length + (d.length + c.length) := by
        rw [hin, List.length_append, List.length_append]
      rw [hseek]
      dsimp only
      rw [if_neg (by omega), if_neg (by omega), if_neg (by omega), hin, List.drop_left,
        Int.toNat_natCast, List.take_left]

/-! ## Round trip -/

/-- What is recorded while an executable is written is what `bytesections.ml`
    and the runtime system find in it: the table, the place where the sections
    begin, and of the sections with one name the last. -/
theorem sections_round_trip {ws : List Write} (hws : recorded [] ws = (ss, [])) (hs : Storable ss)
    (s : Channels) :
    ∃ s', link ws s = .ok ((), s') ∧
      (∀ t : Channels, t.input = s'.output → ∃ t',
        readToc t = .ok ((), t') ∧ toc t' = .ok (tocOf ss, t') ∧
        posFirstSection t' = .ok ((s.output.length : Int), t') ∧
        ∀ name, (readSectionString name).run' t' =
          match lastNamed name ss with
          | some d => .ok d
          | none => .error .Not_found) ∧
      ∃ trail trail', readTrailer s'.output = .ok trail ∧
        readSectionDescriptors s'.output trail = .ok trail' ∧
        ∀ name pos, name.length = 4 →
          readSection s'.output pos trail' name = .ok (lastNamed name ss) := by
  obtain ⟨s', hlink, hout⟩ := link_run hws s
  refine ⟨s', hlink, ?_, ?_⟩
  · intro t ht
    rw [hout] at ht
    obtain ⟨p, hp⟩ := readToc_run hs ht
    have hread : Read s.output ss { t with pos := p, sectionTable := (tocOf ss).reverse } :=
      ⟨ht, rfl⟩
    refine ⟨_, hp, ?_, posFirstSection_run hread hs, readSectionString_run hread hs⟩
    show Except.ok ((tocOf ss).reverse.reverse, _) = _
    rw [List.reverse_reverse]
  · rw [hout]
    exact ⟨_, _, readTrailer_run s.output hs, readSectionDescriptors_run s.output hs,
      fun name pos hname => readSection_run s.output hs hname pos⟩

/-- A header, and two sections called `CODE`. -/
theorem sections_round_trip_code :
    ∃ s', link [.output [1, 2], .record [0x43, 0x4F, 0x44, 0x45], .output [3],
        .record [0x43, 0x4F, 0x44, 0x45]] ⟨[], 0, [0x23, 0x21, 0x0A], [], 0⟩ = .ok ((), s') ∧
      ∃ trail trail', readTrailer s'.output = .ok trail ∧
        readSectionDescriptors s'.output trail = .ok trail' ∧
        readSection s'.output 0 trail' [0x43, 0x4F, 0x44, 0x45] = .ok (some [3]) := by
  obtain ⟨s', hlink, -, trail, trail', htrail, hdesc, hread⟩ :=
    @sections_round_trip _ [.output [1, 2], .record [0x43, 0x4F, 0x44, 0x45], .output [3],
        .record [0x43, 0x4F, 0x44, 0x45]] rfl
      ⟨by decide, by decide, by decide⟩ ⟨[], 0, [0x23, 0x21, 0x0A], [], 0⟩
  exact ⟨s', hlink, trail, trail', htrail, hdesc, hread [0x43, 0x4F, 0x44, 0x45] 0 rfl⟩

end CamlSections
