import CamlInterp.SkipArenaProofs

/-! # Events and breakpoints — `runtime/debugger.c`

    The debugger puts the instructions `EVENT` and `BREAK` over others and
    keeps those in the skip list `event_points_table`, under their addresses.
    Whatever the debugger asks for, and whatever code comes and goes, the
    interpreter finds the original instruction under every one put there, and
    taking one away leaves the code as it was.  The debugger gets its turn between
    the fetch of an `EVENT` or a `BREAK` and the restart of the instruction under
    it: if it takes away just that one then, nothing is found. -/

namespace CamlBreakpoints

open CamlSkipList CamlSkipList.Arena
open Function (update)

/-- `opcode_t` -/
abbrev Opcode := BitVec 32

/-- A code fragment, from `code_start` up to `code_end`. -/
structure CodeFragment where
  codeStart : Nat
  codeEnd : Nat

/-- `event_points_table`, the words of code memory, and the fragments by number. -/
structure Debugger where
  table : Arena Unit
  code : Nat → Opcode
  frags : Nat → Option CodeFragment

/-- The words `caml_set_instruction` writes for `EVENT` and for `BREAK`. -/
structure Encoded where
  event : Opcode
  breakpoint : Opcode

/-- An `opcode_t` as a `uintnat`. -/
def toUintnat (w : Opcode) : Nat := (w.signExtend 64).toNat

/-- A `uintnat` as an `opcode_t`. -/
def ofUintnat (n : Nat) : Opcode := BitVec.ofNat 32 n

theorem ofUintnat_toUintnat (w : Opcode) : ofUintnat (toUintnat w) = w := by
  unfold ofUintnat toUintnat
  rw [BitVec.ofNat_toNat]
  ext i hi
  simp only [BitVec.getElem_setWidth, BitVec.getLsbD_signExtend]
  have h : i < 64 := by omega
  simp [h, hi]

/-- `save_instruction` -/
def saveInstruction (pc : Nat) (s : Debugger) : Option Debugger := do
  match ← s.table.find () pc with
  | some _ => return s
  | none =>
      let (_, table) ← s.table.insert () pc (toUintnat (s.code pc))
      return { s with table := table }

/-- `set_instruction`, for an instruction that is encoded as `w`. -/
def setInstruction (pc : Nat) (w : Opcode) (s : Debugger) : Option Debugger := do
  let s ← saveInstruction pc s
  return { s with code := update s.code pc w }

/-- `restore_instruction`; that nothing is found is against its assertion. -/
def restoreInstruction (pc : Nat) (s : Debugger) : Option Debugger := do
  match ← s.table.find () pc with
  | none => none
  | some saved =>
      let s := { s with code := update s.code pc (ofUintnat saved) }
      let (_, table) ← s.table.remove () pc
      return { s with table := table }

/-- `pc_from_pos` -/
def pcFromPos (frag pos : Nat) (s : Debugger) : Option Nat :=
  (s.frags frag).map fun cf => cf.codeStart + pos

/-- `caml_debugger_saved_instruction` -/
def savedInstruction (pc : Nat) (s : Debugger) : Option Opcode := do
  return ofUintnat (← ← s.table.find () pc)

/-- The requests of the command loop of `caml_debugger` that are about code. -/
inductive Request where
  | REQ_SET_EVENT (frag pos : Nat)
  | REQ_SET_BREAKPOINT (frag pos : Nat)
  | REQ_RESET_INSTR (frag pos : Nat)

/-- The cases of the command loop. -/
def execRequest (enc : Encoded) (s : Debugger) : Request → Option Debugger
  | .REQ_SET_EVENT frag pos => do setInstruction (← pcFromPos frag pos s) enc.event s
  | .REQ_SET_BREAKPOINT frag pos => do setInstruction (← pcFromPos frag pos s) enc.breakpoint s
  | .REQ_RESET_INSTR frag pos => do restoreInstruction (← pcFromPos frag pos s) s

/-- `caml_debugger_code_unloaded`, after the debugger has been told. -/
def codeUnloaded (index : Nat) (s : Debugger) : Option Debugger := do
  let cf ← s.frags index
  foreach Debugger.table ()
    (fun pc _ s =>
      if cf.codeStart ≤ pc ∧ pc < cf.codeEnd then do
        let (_, table) ← s.table.remove () pc
        return { s with table := table }
      else some s)
    s

/-- `EVENT` or `BREAK` is at `pc`. -/
abbrev Put (enc : Encoded) (s : Debugger) (pc : Nat) : Prop :=
  s.code pc = enc.event ∨ s.code pc = enc.breakpoint

def CodeFragment.Holds (cf : CodeFragment) (pc : Nat) : Prop := cf.codeStart ≤ pc ∧ pc < cf.codeEnd

/-- `pc` is in a code fragment. -/
def Loaded (s : Debugger) (pc : Nat) : Prop := ∃ i cf, s.frags i = some cf ∧ cf.Holds pc

/-- The code as it was loaded, and where instructions start in it: the other words
    are operands. -/
structure Original where
  word : Nat → Opcode
  starts : Nat → Prop

/-- `orig` is the code as it was loaded. -/
structure Inv (enc : Encoded) (s : Debugger) (nodes : Unit → List Node) (orig : Original) :
    Prop where
  laid : Laid s.table nodes
  saved : ∀ {pc d}, lookup (nodes ()) pc = some d →
    Loaded s pc ∧ ofUintnat d = orig.word pc ∧ Put enc s pc
  same : ∀ {pc}, Loaded s pc → lookup (nodes ()) pc = none → s.code pc = orig.word pc
  plain : ∀ {pc}, Loaded s pc → orig.starts pc →
    orig.word pc ≠ enc.event ∧ orig.word pc ≠ enc.breakpoint
  apart : ∀ {i j cf cf'}, i ≠ j → s.frags i = some cf → s.frags j = some cf' →
    ∀ pc, cf.Holds pc → ¬ cf'.Holds pc

variable {enc : Encoded} {s : Debugger} {nodes : Unit → List Node} {orig : Original}

/-- An instruction is put at `pc`; the one there was saved before, or is now. -/
theorem setInstruction_inv (hi : Inv enc s nodes orig) {pc : Nat} {w : Opcode}
    (hpc : Loaded s pc) (hw : w = enc.event ∨ w = enc.breakpoint) :
    ∃ s' nodes', setInstruction pc w s = some s' ∧ Inv enc s' nodes' orig ∧
      s'.code = update s.code pc w ∧ s'.frags = s.frags := by
  unfold setInstruction saveInstruction
  rw [find_laid hi.laid]
  cases hl : lookup (nodes ()) pc with
  | some d =>
      refine ⟨{ s with code := update s.code pc w }, nodes, rfl, ?_, rfl, rfl⟩
      refine ⟨hi.laid, fun {pc' d'} h' => ?_, fun {pc'} hp' h' => ?_, hi.plain, hi.apart⟩
      · obtain ⟨h1, h2, h3⟩ := hi.saved h'
        refine ⟨h1, h2, ?_⟩
        by_cases heq : pc' = pc
        · subst heq
          simpa [Put] using hw
        · simpa [Put, heq] using h3
      · have hne : pc' ≠ pc := by
          rintro rfl
          rw [hl] at h'
          cases h'
        exact (Function.update_of_ne hne ..).trans (hi.same hp' h')
  | none =>
      obtain ⟨table, l, heq, hlaid, hlook⟩ := insert_laid hi.laid () pc (toUintnat (s.code pc))
      refine ⟨⟨table, update s.code pc w, s.frags⟩, update nodes () l, ?_, ?_, rfl, rfl⟩
      · simp only [Option.bind_eq_bind, Option.bind_some, heq]
        rfl
      · refine ⟨hlaid, fun {pc' d'} h' => ?_, fun {pc'} hp' h' => ?_, hi.plain, hi.apart⟩
        · rw [Function.update_self, hlook] at h'
          by_cases hp : pc' = pc
          · subst hp
            rw [if_pos rfl] at h'
            obtain rfl := Option.some.inj h'
            refine ⟨hpc, ?_, by simpa [Put] using hw⟩
            rw [ofUintnat_toUintnat]
            exact hi.same hpc hl
          · rw [if_neg hp] at h'
            obtain ⟨h1, h2, h3⟩ := hi.saved h'
            exact ⟨h1, h2, by simpa [Put, hp] using h3⟩
        · rw [Function.update_self, hlook] at h'
          have hne : pc' ≠ pc := by
            rintro rfl
            rw [if_pos rfl] at h'
            cases h'
          rw [if_neg hne] at h'
          exact (Function.update_of_ne hne ..).trans (hi.same hp' h')

/-- The instruction put at `pc` is taken away. -/
theorem restoreInstruction_inv (hi : Inv enc s nodes orig) {pc d : Nat}
    (hl : lookup (nodes ()) pc = some d) :
    ∃ s' nodes', restoreInstruction pc s = some s' ∧ Inv enc s' nodes' orig ∧
      s'.code = update s.code pc (orig.word pc) ∧ s'.frags = s.frags := by
  obtain ⟨hpc, hd, -⟩ := hi.saved hl
  obtain ⟨table, l, heq, hlaid, -, hlook⟩ := remove_laid hi.laid () pc
  refine ⟨⟨table, update s.code pc (orig.word pc), s.frags⟩, update nodes () l, ?_, ?_, rfl, rfl⟩
  · unfold restoreInstruction
    rw [find_laid hi.laid, hl]
    simp only [Option.bind_eq_bind, Option.bind_some, heq, hd]
    rfl
  · refine ⟨hlaid, fun {pc' d'} h' => ?_, fun {pc'} hp' h' => ?_, hi.plain, hi.apart⟩
    · rw [Function.update_self, hlook] at h'
      have hne : pc' ≠ pc := by
        rintro rfl
        rw [if_pos rfl] at h'
        cases h'
      rw [if_neg hne] at h'
      obtain ⟨h1, h2, h3⟩ := hi.saved h'
      exact ⟨h1, h2, by simpa [Put, hne] using h3⟩
    · rw [Function.update_self, hlook] at h'
      by_cases hp : pc' = pc
      · subst hp
        exact Function.update_self ..
      · rw [if_neg hp] at h'
        exact (Function.update_of_ne hp ..).trans (hi.same hp' h')

/-- Where nothing is saved there is nothing to take away. -/
theorem restoreInstruction_none (hi : Inv enc s nodes orig) {pc : Nat}
    (hl : lookup (nodes ()) pc = none) : restoreInstruction pc s = none := by
  unfold restoreInstruction
  rw [find_laid hi.laid, hl]
  rfl

/-- The entries of a fragment are removed, and no others. -/
theorem codeUnloaded_laid (hlaid : Laid s.table nodes) {index : Nat} {cf : CodeFragment}
    (hcf : s.frags index = some cf) :
    ∃ s' nodes', codeUnloaded index s = some s' ∧ Laid s'.table nodes' ∧ s'.code = s.code ∧
      s'.frags = s.frags ∧
      nodes' () = (nodes ()).filter fun nd => ¬ (cf.codeStart ≤ nd.key ∧ nd.key < cf.codeEnd) := by
  let out : Node → Bool := fun nd => ¬ (cf.codeStart ≤ nd.key ∧ nd.key < cf.codeEnd)
  let I : List Node → Debugger → Prop := fun done t => t.code = s.code ∧ t.frags = s.frags ∧
    ∃ nodes', Laid t.table nodes' ∧
      ∀ rest, nodes () = done ++ rest → nodes' () = done.filter out ++ rest
  have h0 : I [] s := ⟨rfl, rfl, nodes, hlaid, fun rest h => h⟩
  obtain ⟨s', heq, hcode, hfrags, nodes', hlaid', hn⟩ := foreach_inv Debugger.table ()
    (fun pc _ s =>
      if cf.codeStart ≤ pc ∧ pc < cf.codeEnd then do
        let (_, table) ← s.table.remove () pc
        return { s with table := table }
      else some s) I h0 ⟨nodes, hlaid, rfl⟩
    (fun {done rest t} hsplit ht => by
      obtain ⟨-, -, nodes', hl', hn⟩ := ht
      exact ⟨nodes', done.filter out, hl', hn rest hsplit⟩)
    (by
      rintro done nd rest t hsplit ⟨hc, hf, nodes', hl', hn⟩
      have hrest := hn (nd :: rest) hsplit
      by_cases hin : cf.codeStart ≤ nd.key ∧ nd.key < cf.codeEnd
      · obtain ⟨table, l, heq, hl, hfil, -⟩ := remove_laid hl' () nd.key
        refine ⟨{ t with table := table }, ?_, hc, hf, _, hl, fun rest' hsplit' => ?_⟩
        · rw [if_pos hin, heq]
          rfl
        · rw [List.append_assoc] at hsplit'
          obtain rfl : rest' = rest :=
            (List.cons.inj (List.append_cancel_left (hsplit.symm.trans hsplit'))).2.symm
          have hs := (hl'.rep ()).sorted
          rw [hrest] at hs
          have hleft : (done.filter out).filter (fun x => x.key ≠ nd.key) = done.filter out :=
            List.filter_eq_self.mpr fun x hx => decide_eq_true
              (Nat.ne_of_lt ((List.pairwise_append.mp hs).2.2 x hx nd (List.mem_cons_self ..)))
          have hright : rest'.filter (fun x => x.key ≠ nd.key) = rest' :=
            List.filter_eq_self.mpr fun x hx => decide_eq_true (Nat.ne_of_gt
              ((List.pairwise_cons.mp (List.pairwise_append.mp hs).2.1).1 x hx))
          have hout : out nd = false := by simp [out, hin]
          rw [Function.update_self, hfil, hrest, List.filter_append, hleft,
            List.filter_cons_of_neg (by simp), hright, List.filter_append,
            List.filter_cons_of_neg (by simp [hout]), List.filter_nil, List.append_nil]
      · refine ⟨t, if_neg hin, hc, hf, nodes', hl', fun rest' hsplit' => ?_⟩
        rw [List.append_assoc] at hsplit'
        obtain rfl : rest' = rest :=
          (List.cons.inj (List.append_cancel_left (hsplit.symm.trans hsplit'))).2.symm
        have hout : out nd = true := decide_eq_true hin
        rw [hrest, List.filter_append, List.filter_cons_of_pos hout, List.filter_nil,
          List.append_assoc]
        rfl)
  refine ⟨s', nodes', ?_, hlaid', hcode, hfrags, ?_⟩
  · unfold codeUnloaded
    rw [hcf]
    exact heq
  · have hfinal := hn [] (List.append_nil _).symm
    rwa [List.append_nil] at hfinal

/-! ## Runs -/

/-- What happens to code: requests of the debugger, and fragments that come and go. -/
inductive Event where
  | request (r : Request)
  | load (index : Nat) (cf : CodeFragment) (new : Original)
  | unload (index : Nat)

/-- The place a request is about. -/
def Request.place : Request → Nat × Nat
  | .REQ_SET_EVENT frag pos => (frag, pos)
  | .REQ_SET_BREAKPOINT frag pos => (frag, pos)
  | .REQ_RESET_INSTR frag pos => (frag, pos)

/-- A request is about an instruction of a fragment. -/
def Request.Allowed (s : Debugger) (orig : Original) (r : Request) : Prop :=
  ∃ cf, s.frags r.place.1 = some cf ∧ cf.Holds (cf.codeStart + r.place.2) ∧
    orig.starts (cf.codeStart + r.place.2)

/-- Requests are about instructions of fragments; new code has a number and
    memory of its own, and no instruction that only the debugger puts there. -/
def Event.Allowed (enc : Encoded) (s : Debugger) (orig : Original) : Event → Prop
  | .request r => r.Allowed s orig
  | .load index cf new => s.frags index = none ∧ (∀ pc, cf.Holds pc → ¬ Loaded s pc) ∧
      ∀ pc, cf.Holds pc → new.starts pc →
        new.word pc ≠ enc.event ∧ new.word pc ≠ enc.breakpoint
  | .unload index => (s.frags index).isSome

def placed (cf : CodeFragment) (words code : Nat → Opcode) (pc : Nat) : Opcode :=
  if cf.codeStart ≤ pc ∧ pc < cf.codeEnd then words pc else code pc

def Original.placed (cf : CodeFragment) (new orig : Original) : Original where
  word := CamlBreakpoints.placed cf new.word orig.word
  starts pc := if cf.codeStart ≤ pc ∧ pc < cf.codeEnd then new.starts pc else orig.starts pc

def step (enc : Encoded) (s : Debugger) : Event → Option Debugger
  | .request r => execRequest enc s r
  | .load index cf new =>
      some { s with code := placed cf new.word s.code, frags := update s.frags index (some cf) }
  | .unload index => do
      let s ← codeUnloaded index s
      return { s with frags := update s.frags index none }

/-- The code as loaded, after an event. -/
def Event.loaded (orig : Original) : Event → Original
  | .load _ cf new => Original.placed cf new orig
  | _ => orig

/-- A request to take away is for an instruction that is there. -/
def Event.Sane (enc : Encoded) (s : Debugger) : Event → Prop
  | .request (.REQ_RESET_INSTR frag pos) => ∀ pc, pcFromPos frag pos s = some pc → Put enc s pc
  | _ => True

theorem Inv.saved_of_put (hi : Inv enc s nodes orig) {pc : Nat} (hpc : Loaded s pc)
    (hstart : orig.starts pc) (hw : Put enc s pc) : ∃ d, lookup (nodes ()) pc = some d := by
  cases hl : lookup (nodes ()) pc with
  | some d => exact ⟨d, rfl⟩
  | none =>
      unfold Put at hw
      rw [hi.same hpc hl] at hw
      exact absurd hw (not_or.mpr (hi.plain hpc hstart))

/-- The words of a new fragment go where no fragment was. -/
theorem load_inv (hi : Inv enc s nodes orig) {index : Nat} {cf : CodeFragment}
    {new : Original} (ha : (Event.load index cf new).Allowed enc s orig) :
    Inv enc { s with code := placed cf new.word s.code, frags := update s.frags index (some cf) }
      nodes (Original.placed cf new orig) := by
  obtain ⟨hnew, hapart, hwords⟩ := ha
  have hold : ∀ {pc}, Loaded s pc → ¬ cf.Holds pc := fun hp hc => hapart _ hc hp
  -- what is in a fragment now was in one before, or is in the new one
  have hloaded : ∀ {pc}, (∃ i cf', update s.frags index (some cf) i = some cf' ∧ cf'.Holds pc) →
      Loaded s pc ∨ cf.Holds pc := by
    rintro pc ⟨i, cf', hcf, hpc⟩
    by_cases hx : i = index
    · subst hx
      rw [Function.update_self] at hcf
      obtain rfl := Option.some.inj hcf
      exact .inr hpc
    · rw [Function.update_of_ne hx] at hcf
      exact .inl ⟨i, cf', hcf, hpc⟩
  refine ⟨hi.laid, fun {pc d} hl => ?_, fun {pc} hp hl => ?_, fun {pc} hp hstart => ?_, ?_⟩
  · obtain ⟨⟨i, cf', hcf, hpc⟩, h2, h3⟩ := hi.saved hl
    have hno : ¬ (cf.codeStart ≤ pc ∧ pc < cf.codeEnd) := hold ⟨i, cf', hcf, hpc⟩
    have hx : i ≠ index := by
      rintro rfl
      rw [hnew] at hcf
      cases hcf
    refine ⟨⟨i, cf', (Function.update_of_ne hx ..).trans hcf, hpc⟩, ?_, ?_⟩
    · show _ = placed cf new.word orig.word pc
      rw [placed, if_neg hno]
      exact h2
    · show placed cf new.word s.code pc = _ ∨ placed cf new.word s.code pc = _
      rw [placed, if_neg hno]
      exact h3
  · show placed cf new.word s.code pc = placed cf new.word orig.word pc
    by_cases hin : cf.codeStart ≤ pc ∧ pc < cf.codeEnd
    · rw [placed, placed, if_pos hin, if_pos hin]
    · rw [placed, placed, if_neg hin, if_neg hin]
      exact hi.same ((hloaded hp).resolve_right hin) hl
  · show placed cf new.word orig.word pc ≠ _ ∧ placed cf new.word orig.word pc ≠ _
    unfold Original.placed at hstart
    by_cases hin : cf.codeStart ≤ pc ∧ pc < cf.codeEnd
    · rw [placed, if_pos hin]
      exact hwords pc hin ((if_pos hin).mp hstart)
    · rw [placed, if_neg hin]
      exact hi.plain ((hloaded hp).resolve_right hin) ((if_neg hin).mp hstart)
  · intro i j cf1 cf2 hij h1 h2 pc hp1 hp2
    dsimp only at h1 h2
    by_cases hx : i = index
    · subst hx
      rw [Function.update_self] at h1
      obtain rfl := Option.some.inj h1
      rw [Function.update_of_ne (Ne.symm hij)] at h2
      exact hapart pc hp1 ⟨j, cf2, h2, hp2⟩
    · rw [Function.update_of_ne hx] at h1
      by_cases hy : j = index
      · subst hy
        rw [Function.update_self] at h2
        obtain rfl := Option.some.inj h2
        exact hapart pc hp2 ⟨i, cf1, h1, hp1⟩
      · rw [Function.update_of_ne hy] at h2
        exact hi.apart hij h1 h2 pc hp1 hp2

/-- The entries of a fragment go with it. -/
theorem unload_inv (hi : Inv enc s nodes orig) {index : Nat} {cf : CodeFragment}
    (hcf : s.frags index = some cf) :
    ∃ s' nodes', codeUnloaded index s = some s' ∧
      Inv enc { s' with frags := update s'.frags index none } nodes' orig := by
  obtain ⟨s', nodes', heq, hlaid, hcode, hfrags, hfil⟩ := codeUnloaded_laid hi.laid hcf
  -- a key is looked up among the nodes that are left
  have hlook : ∀ pc, lookup (nodes' ()) pc =
      if cf.codeStart ≤ pc ∧ pc < cf.codeEnd then none else lookup (nodes ()) pc := by
    intro pc
    rw [hfil]
    generalize nodes () = l
    induction l with
    | nil => simp [lookup]
    | cons nd l ih =>
        by_cases hin : cf.codeStart ≤ nd.key ∧ nd.key < cf.codeEnd
        · rw [List.filter_cons_of_neg (by simpa using hin), ih, lookup]
          by_cases hk : nd.key = pc
          · subst hk
            rw [if_pos hin, if_pos hin]
          · rw [if_neg hk]
        · rw [List.filter_cons_of_pos (by exact decide_eq_true hin), lookup, lookup, ih]
          by_cases hk : nd.key = pc
          · subst hk
            rw [if_pos rfl, if_pos rfl, if_neg hin]
          · rw [if_neg hk, if_neg hk]
  have hloaded : ∀ {pc}, (∃ i cf', update s'.frags index none i = some cf' ∧ cf'.Holds pc) →
      ∃ i cf', i ≠ index ∧ s.frags i = some cf' ∧ cf'.Holds pc := by
    rintro pc ⟨i, cf', hc, hp⟩
    have hx : i ≠ index := by
      rintro rfl
      rw [Function.update_self] at hc
      cases hc
    rw [Function.update_of_ne hx, hfrags] at hc
    exact ⟨i, cf', hx, hc, hp⟩
  refine ⟨s', nodes', heq, hlaid, fun {pc d} hl => ?_, fun {pc} hp hl => ?_,
    fun {pc} hp hstart => ?_, ?_⟩
  · rw [hlook] at hl
    by_cases hin : cf.codeStart ≤ pc ∧ pc < cf.codeEnd
    · rw [if_pos hin] at hl
      cases hl
    · rw [if_neg hin] at hl
      obtain ⟨⟨i, cf', hc, hp⟩, h2, h3⟩ := hi.saved hl
      have hx : i ≠ index := by
        rintro rfl
        obtain rfl := Option.some.inj (hcf.symm.trans hc)
        exact hin hp
      refine ⟨⟨i, cf', (Function.update_of_ne hx ..).trans (hfrags ▸ hc), hp⟩, h2, ?_⟩
      unfold Put
      rw [hcode]
      exact h3
  · obtain ⟨i, cf', hx, hc, hp'⟩ := hloaded hp
    have hin : ¬ (cf.codeStart ≤ pc ∧ pc < cf.codeEnd) := hi.apart hx hc hcf pc hp'
    rw [hlook, if_neg hin] at hl
    exact (congrFun hcode pc).trans (hi.same ⟨i, cf', hc, hp'⟩ hl)
  · obtain ⟨i, cf', -, hc, hp'⟩ := hloaded hp
    exact hi.plain ⟨i, cf', hc, hp'⟩ hstart
  · intro i j cf1 cf2 hij h1 h2 pc hp1 hp2
    have hx : ∀ {k cf'}, update s'.frags index none k = some cf' → s.frags k = some cf' := by
      intro k cf' hk
      have hne : k ≠ index := by
        rintro rfl
        rw [Function.update_self] at hk
        cases hk
      rwa [Function.update_of_ne hne, hfrags] at hk
    exact hi.apart hij (hx h1) (hx h2) pc hp1 hp2

/-- A request keeps the invariant and the fragments, if it takes away only what is
    there. -/
theorem execRequest_inv {r : Request} (hi : Inv enc s nodes orig) (ha : r.Allowed s orig)
    (hs : (Event.request r).Sane enc s) :
    ∃ s' nodes', execRequest enc s r = some s' ∧ Inv enc s' nodes' orig ∧ s'.frags = s.frags := by
  obtain ⟨cf, hcf, hpc, hstart⟩ := ha
  have hpos : pcFromPos r.place.1 r.place.2 s = some (cf.codeStart + r.place.2) := by
    rw [pcFromPos, hcf]
    rfl
  have hloaded : Loaded s (cf.codeStart + r.place.2) := ⟨_, cf, hcf, hpc⟩
  cases r with
  | REQ_SET_EVENT frag pos =>
      obtain ⟨s', nodes', heq, hi', -, hfrags⟩ := setInstruction_inv hi hloaded (.inl rfl)
      refine ⟨s', nodes', ?_, hi', hfrags⟩
      show (pcFromPos frag pos s).bind _ = _
      rw [show pcFromPos frag pos s = _ from hpos]
      exact heq
  | REQ_SET_BREAKPOINT frag pos =>
      obtain ⟨s', nodes', heq, hi', -, hfrags⟩ := setInstruction_inv hi hloaded (.inr rfl)
      refine ⟨s', nodes', ?_, hi', hfrags⟩
      show (pcFromPos frag pos s).bind _ = _
      rw [show pcFromPos frag pos s = _ from hpos]
      exact heq
  | REQ_RESET_INSTR frag pos =>
      obtain ⟨d, hl⟩ := hi.saved_of_put hloaded hstart (hs _ hpos)
      obtain ⟨s', nodes', heq, hi', -, hfrags⟩ := restoreInstruction_inv hi hl
      refine ⟨s', nodes', ?_, hi', hfrags⟩
      show (pcFromPos frag pos s).bind _ = _
      rw [show pcFromPos frag pos s = _ from hpos]
      exact heq

/-- Every event that is allowed, and sane, keeps the invariant. -/
theorem step_inv {e : Event} (hi : Inv enc s nodes orig) (ha : e.Allowed enc s orig)
    (hs : e.Sane enc s) :
    ∃ s' nodes', step enc s e = some s' ∧ Inv enc s' nodes' (e.loaded orig) := by
  cases e with
  | request r =>
      obtain ⟨s', nodes', heq, hi', -⟩ := execRequest_inv hi ha hs
      exact ⟨s', nodes', heq, hi'⟩
  | load index cf new => exact ⟨_, nodes, rfl, load_inv hi ha⟩
  | unload index =>
      obtain ⟨cf, hcf⟩ := Option.isSome_iff_exists.mp ha
      obtain ⟨s', nodes', heq, hi'⟩ := unload_inv hi hcf
      refine ⟨_, nodes', ?_, hi'⟩
      show (codeUnloaded index s).bind _ = _
      rw [heq]
      rfl

/-- The debugger before any code is loaded. -/
def initial (code : Nat → Opcode) : Debugger := ⟨Arena.init Unit, code, fun _ => none⟩

theorem initial_inv (code : Nat → Opcode) :
    Inv enc (initial code) (fun _ => []) ⟨code, fun _ => False⟩ where
  laid := init_laid
  saved := fun h => by cases h
  same := fun _ _ => rfl
  plain := fun _ h => h.elim
  apart := fun _ h => by cases h

/-- Any events one after the other; `orig` is the code as it was loaded. -/
inductive Runs (enc : Encoded) (code : Nat → Opcode) : Debugger → Original → Prop where
  | start : Runs enc code (initial code) ⟨code, fun _ => False⟩
  | step {s s' : Debugger} {orig : Original} (e : Event) (hr : Runs enc code s orig)
      (ha : e.Allowed enc s orig) (hs : CamlBreakpoints.step enc s e = some s') :
      Runs enc code s' (e.loaded orig)

/-- A request to take away an instruction that is not there does not return. -/
theorem sane_of_step {e : Event} {s' : Debugger} (hi : Inv enc s nodes orig)
    (hs : step enc s e = some s') : e.Sane enc s := by
  cases e with
  | request r =>
      cases r with
      | REQ_RESET_INSTR frag pos =>
          intro pc hpc
          cases hl : lookup (nodes ()) pc with
          | some d => exact (hi.saved hl).2.2
          | none =>
              have hno : execRequest enc s (.REQ_RESET_INSTR frag pos) = none := by
                show (pcFromPos frag pos s).bind _ = _
                rw [hpc]
                exact restoreInstruction_none hi hl
              cases hno.symm.trans hs
      | _ => trivial
  | _ => trivial

theorem Runs.inv {code : Nat → Opcode} (hr : Runs enc code s orig) :
    ∃ nodes, Inv enc s nodes orig := by
  induction hr with
  | start => exact ⟨_, initial_inv code⟩
  | step e _ ha hs ih =>
      obtain ⟨nodes, hi⟩ := ih
      obtain ⟨s', nodes', heq, hi'⟩ := step_inv hi ha (sane_of_step hi hs)
      obtain rfl := Option.some.inj (heq.symm.trans hs)
      exact ⟨nodes', hi'⟩

end CamlBreakpoints
