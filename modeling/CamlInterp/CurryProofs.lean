import CamlInterp.EffectProofs

/-! # Currying — a closure applied to its arguments in batches

    The code of a function of `n ≥ 2` arguments is `RESTART; entry: GRAB (n-1);
    body`.  With too few arguments `GRAB` builds a closure that holds them and
    points to the `RESTART`, which puts them back when the closure is applied.
    However the arguments are split, the body starts as if they had come at
    once; the partial closures are what carries the induction.  `GRAB` allocates
    them in the minor heap whatever their size, which fails its assertion from
    254 arguments on; and `RESTART` pushes what they hold without a check of the
    stack. -/

namespace CamlCurry

open CellStore ParentChain CamlValue CamlOpcode CamlMachine CamlInstr CamlControl CamlStep
  CamlFiber CamlEffect Runs

variable {ω : Type}

/-! ## Partial closures -/

/-- A return frame. -/
structure Frame where
  pc : CodePtr
  env : Value
  extraArgs : Long

/-- The three words of a frame on the stack. -/
def Frame.words (f : Frame) : List Value := [ofCode f.pc, f.env, valLong f.extraArgs]

/-- The code of a function of `n` arguments: `RESTART; entry: GRAB (n-1)`. -/
structure CodeAt (mem : Mem) (entry : CodePtr) (n : Nat) : Prop where
  restart : decode (mem.code (entry - 4#64)) = some .RESTART
  grab : decode (mem.code entry) = some .GRAB
  required : (mem.code (entry + 4#64)).toInt + 1 = n

/-- The fields of the closure `GRAB` builds. -/
def partialFields (c : Value) (entry : CodePtr) (args : List Value) : List Value :=
  ofCode (entry - 4#64) :: .word (makeClosinfo 0 2) :: c :: args

/-- `f` is the closure `c` with `args` already supplied. -/
def Holds (h : Heap) (c : Value) (entry : CodePtr) (args : List Value) (f : Value) : Prop :=
  if args = [] then f = c ∧ codeVal h c = .ok entry
  else ∃ b, f = .ptr b 0 ∧ h.get b = some ⟨closureTag, partialFields c entry args⟩

/-- The machine executes an apply instruction on the arguments `as`, with the
    return frame `fr` on top of `rest`. -/
inductive Applies (as : List Value) (fr : Frame) (rest : List Value) (s : Machine ω) : Prop where
  | apply : executing (.next s) = some .APPLY →
      (fetched (.next s)).operand.toInt = as.length →
      s.sp = as ++ (fr.words ++ rest) → Applies as fr rest s
  | applyArgs {op : Opcode} {n : Nat} : executing (.next s) = some op →
      (op, n) ∈ [(Opcode.APPLY1, 1), (Opcode.APPLY2, 2), (Opcode.APPLY3, 3)] →
      as.length = n → s.sp = as ++ rest →
      fr = ⟨s.pc + 4#64, s.env, s.extraArgs⟩ → Applies as fr rest s

/-- The current stack has room for `n` words. -/
def Room (m : Machine ω) (n : Nat) : Prop :=
  ∃ i, m.dom.pool.get m.dom.currentStack = some i ∧ n ≤ i.size

/-- One application of a split: what is applied to, the caller's frame, and
    what happened since the previous application returned. -/
structure Call (ω : Type) where
  args : List Value
  frame : Frame
  rest : List Value
  goOn : Machine ω → Machine ω

/-- An application of the closure `c`, `args` of whose arguments were supplied
    before, to the arguments of `call`. -/
structure Application (c : Value) (entry : CodePtr) (n : Nat) (args : List Value)
    (call : Call ω) (s : Machine ω) : Prop where
  applies : Applies call.args call.frame call.rest s
  holds : Holds s.mem.heap c entry args s.accu
  code : CodeAt s.mem entry n

/-- The closure applied at `s` is entered within the stack, `check_stacks` goes on, and
    there is room for the `held` arguments `RESTART` pushes. -/
def HasRoom (rt : Runtime ω) (act : Activation) (held : Nat) (s : Machine ω) : Prop :=
  ∃ x y, machineStep rt act (.next s) = .ok (.checkStacks x) ∧ Room x x.sp.length ∧
    machineStep rt act (.checkStacks x) = .ok (.next y) ∧ Room y (held + y.sp.length)

/-- A partial application has returned to its caller: `accu` is the closure
    that holds all arguments so far. -/
structure Returned (c : Value) (entry : CodePtr) (args : List Value) (fr : Frame)
    (rest : List Value) (m : Machine ω) : Prop where
  pc : m.pc = fr.pc
  env : m.env = fr.env
  extraArgs : m.extraArgs = fr.extraArgs
  sp : m.sp = rest
  holds : Holds m.mem.heap c entry args m.accu

/-- The machine is at the first instruction of the body, with all arguments. -/
structure AtBody (c : Value) (entry : CodePtr) (n : Nat) (args : List Value) (fr : Frame)
    (rest : List Value) (m : Machine ω) : Prop where
  pc : m.pc = entry + 8#64
  sp : m.sp = args ++ (fr.words ++ rest)
  env : m.env = c
  extraArgs : m.extraArgs = BitVec.ofNat 63 (args.length - n)
  room : Room m m.sp.length

/-- Within an application over the caller's words `rest`: nothing has been raised, the
    words are within the stack, and the caller's are covered. -/
def Within (rest : List Value) (x : Ctl (Machine ω)) : Prop :=
  (∀ m, x ≠ .raiseNotrace m) ∧ Room x.state x.state.sp.length ∧ rest.length < x.state.sp.length

/-- A run from the application at `s` up to `m`. -/
def Reaches (rt : Runtime ω) (act : Activation) (rest : List Value) (s m : Machine ω) : Prop :=
  ∃ past, Run (machineStep rt act) (.next s) past (.next m) ∧ past ≠ [] ∧
    ∀ x ∈ past, Within rest x

/-- Pending actions return, perhaps on a stack that has been moved, and keep code and
    closures where they are. -/
structure Benign (rt : Runtime ω) : Prop extends KeepsCode rt where
  returns : ∀ mem dom, ∃ v mem' dom', rt.processPendingActions mem dom = .ok (.value v mem' dom')
  closureBlocks : ∀ {mem dom v mem' dom' b blk},
    rt.processPendingActions mem dom = .ok (.value v mem' dom') →
    mem.heap.get b = some blk → blk.tag = closureTag → mem'.heap.get b = some blk

variable {rt : Runtime ω} {act : Activation} {c : Value} {entry pc : CodePtr} {n : Nat}
  {args as rest : List Value} {fr : Frame} {s m m' : Machine ω} {call : Call ω}
  {later : List (Call ω)}

/-! ## The steps of one application -/

/-- Argument counts fit in an `int`. -/
theorem Applies.length_lt (h : Applies as fr rest s) : as.length < 2 ^ 31 := by
  cases h with
  | apply _ hop _ =>
      have := BitVec.toInt_lt (x := (fetched (.next s)).operand)
      omega
  | applyArgs _ hmem hlen _ _ =>
      simp only [List.mem_cons, Prod.mk.injEq, List.not_mem_nil, or_false] at hmem
      omega

theorem Benign.givesBack (hb : Benign rt) : GivesBack rt :=
  ⟨hb.returns, fun h hsp => ⟨hb.words h hsp, hb.code h⟩⟩

theorem callBody_applyArgs {op : Opcode} {k : Nat}
    (h : (op, k) ∈ [(Opcode.APPLY1, 1), (Opcode.APPLY2, 2), (Opcode.APPLY3, 3)]) :
    isApply op = true ∧ callBody op = applyArgs k := by
  simp only [List.mem_cons, Prod.mk.injEq, List.not_mem_nil, or_false] at h
  rcases h with ⟨rfl, rfl⟩ | ⟨rfl, rfl⟩ | ⟨rfl, rfl⟩
  · exact ⟨rfl, rfl⟩
  · exact ⟨rfl, rfl⟩
  · exact ⟨rfl, rfl⟩

theorem ofInt_pred {k : Nat} (h : 0 < k) :
    BitVec.ofInt 63 ((k : Int) - 1) = BitVec.ofNat 63 (k - 1) := by
  have hk : (k : Int) - 1 = ((k - 1 : Nat) : Int) := by omega
  rw [hk, BitVec.ofInt_natCast]

/-- The state an apply instruction enters a closure with. -/
def entered (as : List Value) (fr : Frame) (rest : List Value) (pc : CodePtr) (s : Machine ω) :
    Machine ω :=
  { s with
    pc := pc, sp := as ++ (fr.words ++ rest), env := s.accu,
    extraArgs := BitVec.ofNat 63 (as.length - 1) }

/-- The four apply instructions enter the closure in the same state. -/
theorem Applies.step (rt : Runtime ω) (act : Activation) (h : Applies as fr rest s) (hne : as ≠ [])
    (hpc : codeVal s.mem.heap s.accu = .ok pc) :
    machineStep rt act (.next s) = .ok (.checkStacks (entered as fr rest pc s)) := by
  have hpos := List.length_pos_iff.mpr hne
  cases h with
  | apply hop hlen hsp =>
      rw [machineStep_executing hop]
      refine bind_eq_ok.mpr ⟨_, bind_eq_ok.mpr ⟨_, bind_eq_ok.mpr ⟨pc, hpc, rfl⟩, rfl⟩, ?_⟩
      show _ = Except.ok (Ctl.checkStacks _)
      have hx : BitVec.ofInt 63 ((fetched (.next s)).operand.toInt - 1)
          = BitVec.ofNat 63 (as.length - 1) := by
        rw [hlen, ofInt_pred hpos]
      unfold entered
      rw [← hsp, ← hx]
      rfl
  | @applyArgs op k hop hmem hlen hsp hfr =>
      obtain ⟨happ, hbody⟩ := callBody_applyArgs hmem
      rw [machineStep_executing hop, upstream_exec_apply happ, hbody]
      subst hlen hfr
      have htake : spTake s.sp as.length = .ok as := by
        unfold spTake
        rw [hsp, if_pos (by simp), List.take_left']
        rfl
      refine bind_eq_ok.mpr ⟨_, bind_eq_ok.mpr ⟨_, bind_eq_ok.mpr
        ⟨as, htake, bind_eq_ok.mpr ⟨pc, hpc, rfl⟩⟩, rfl⟩, ?_⟩
      have hdrop : s.sp.drop as.length = rest := by
        rw [hsp, List.drop_left']
        rfl
      show Except.ok (Ctl.checkStacks _) = Except.ok (Ctl.checkStacks _)
      unfold entered
      rw [← hdrop]
      rfl

/-- A closure is entered at the `GRAB`, a partial one at the `RESTART` in front of it. -/
theorem codeVal_holds {h : Heap} {f : Value} (hf : Holds h c entry args f) :
    codeVal h f = .ok (if args = [] then entry else entry - 4#64) := by
  unfold Holds at hf
  split at hf
  · next hnil =>
      obtain ⟨rfl, hc⟩ := hf
      rw [if_pos hnil]
      exact hc
  · next hne =>
      obtain ⟨b, rfl, hb⟩ := hf
      rw [if_neg hne]
      exact codeVal_of_get hb rfl

/-- `RESTART` reads back the arguments of a partial closure. -/
theorem fieldsFrom_append {h : Heap} {b : Nat} {tag : Nat} (front xs : List Value)
    (hb : h.get b = some ⟨tag, front ++ xs⟩) :
    fieldsFrom h (.ptr b 0) front.length xs.length = .ok xs := by
  induction xs generalizing front with
  | nil => rfl
  | cons x xs ih =>
      have hx : field h (.ptr b 0) front.length = .ok x :=
        field_ptr_zero hb (by simp)
      have hrest : fieldsFrom h (.ptr b 0) ((front.length : Int) + 1) xs.length = .ok xs := by
        have := ih (front ++ [x]) (by rw [List.append_assoc]; exact hb)
        rwa [List.length_append] at this
      exact bind_eq_ok.mpr ⟨x, hx, bind_eq_ok.mpr ⟨xs, hrest, rfl⟩⟩

/-- `RESTART` pushes the arguments that a partial closure holds. -/
theorem restart_ok {k : Core} {b : Nat} (henv : k.env = .ptr b 0)
    (hb : k.mem.heap.get b = some ⟨closureTag, partialFields c entry args⟩) :
    restart k = .ok { k with
      sp := args ++ k.sp, env := c,
      extraArgs := k.extraArgs + BitVec.ofNat 63 args.length } := by
  have hsize : wosizeVal k.mem.heap k.env = .ok (args.length + 3) := by
    rw [henv]
    simp only [wosizeVal, hb]
    rfl
  have hargs : fieldsFrom k.mem.heap k.env 3 args.length = .ok args := by
    rw [henv]
    exact fieldsFrom_append [_, _, _] args hb
  have hc : field k.mem.heap k.env 2 = .ok c := by
    rw [henv]
    exact field_ptr_zero (i := 2) hb rfl
  have hnum : ((args.length + 3 : Nat) : Int) - 3 = args.length := by omega
  unfold restart
  refine bind_eq_ok.mpr ⟨_, hsize, ?_⟩
  rw [hnum, if_pos (by omega), Int.toNat_natCast, BitVec.ofInt_natCast]
  exact bind_eq_ok.mpr ⟨args, hargs, bind_eq_ok.mpr ⟨args ++ k.sp, rfl, bind_eq_ok.mpr
    ⟨c, hc, rfl⟩⟩⟩

/-- The machine is at the `GRAB`, with the arguments so far on the stack. -/
structure AtGrab (c : Value) (entry : CodePtr) (n : Nat) (args : List Value) (fr : Frame)
    (rest : List Value) (m : Machine ω) : Prop where
  pc : m.pc = entry
  sp : m.sp = args ++ (fr.words ++ rest)
  env : m.env = c
  extraArgs : m.extraArgs = BitVec.ofNat 63 (args.length - 1)
  code : CodeAt m.mem entry n

theorem CodeAt.congr {mem mem' : Mem} (h : CodeAt mem entry n) (hc : mem'.code = mem.code) :
    CodeAt mem' entry n := by
  refine ⟨?_, ?_, ?_⟩
  · rw [hc]
    exact h.restart
  · rw [hc]
    exact h.grab
  · rw [hc]
    exact h.required

theorem closure_carried (hb : Benign rt) (h : Carried rt m m') {b : Nat} {blk : Block}
    (hget : m.mem.heap.get b = some blk) (htag : blk.tag = closureTag) :
    m'.mem.heap.get b = some blk := by
  rcases h.memory with hm | ⟨dom, v, dom', hp⟩
  · rw [hm]
    exact hget
  · exact hb.closureBlocks hp hget htag

theorem Room.mono {k k' : Nat} (h : Room m k') (hle : k ≤ k') : Room m k := by
  obtain ⟨i, hi, hk⟩ := h
  exact ⟨i, hi, Nat.le_trans hle hk⟩

/-- `RESTART` steps to the `GRAB` behind it. -/
theorem restart_step (rt : Runtime ω) (act : Activation) {b : Nat}
    (hop : executing (.next m) = some .RESTART)
    (henv : m.env = .ptr b 0)
    (hb : m.mem.heap.get b = some ⟨closureTag, partialFields c entry args⟩) :
    machineStep rt act (.next m) = .ok (.next { m with
      pc := m.pc + 4#64, sp := args ++ m.sp, env := c,
      extraArgs := m.extraArgs + BitVec.ofNat 63 args.length }) := by
  rw [machineStep_executing hop]
  have hr := restart_ok (k := (fetched (.next m)).toCore) henv hb
  exact bind_eq_ok.mpr ⟨_, bind_eq_ok.mpr ⟨_, hr, rfl⟩, rfl⟩

/-- The stack before an application is above the caller's words, and no higher than
    after it. -/
theorem Applies.sp_length (h : Applies as fr rest s) (hne : as ≠ []) :
    rest.length < s.sp.length ∧ s.sp.length ≤ as.length + 3 + rest.length := by
  have hpos := List.length_pos_iff.mpr hne
  have hw : fr.words.length = 3 := rfl
  cases h with
  | apply _ _ hsp =>
      rw [hsp]
      simp only [List.length_append, hw]
      omega
  | applyArgs _ _ _ hsp _ =>
      rw [hsp]
      simp only [List.length_append]
      omega

/-- The state in which the code of the closure is entered. -/
def codeEntered (entry : CodePtr) (args : List Value) (call : Call ω) (s : Machine ω) :
    Machine ω :=
  entered call.args call.frame call.rest (if args = [] then entry else entry - 4#64) s

theorem length_codeEntered : (codeEntered entry args call s).sp.length
    = call.args.length + 3 + call.rest.length := by
  simp only [codeEntered, entered, Frame.words, List.length_append, List.length_cons,
    List.length_nil]
  omega

theorem Application.enters (rt : Runtime ω) (act : Activation)
    (h : Application c entry n args call s) (hne : call.args ≠ []) :
    machineStep rt act (.next s) = .ok (.checkStacks (codeEntered entry args call s)) :=
  h.applies.step rt act hne (codeVal_holds h.holds)

/-- The states before the code is entered stay above the caller's words and within the
    stack. -/
theorem Application.before (h : Application c entry n args call s) (hne : call.args ≠ [])
    (hroom : Room (codeEntered entry args call s) (codeEntered entry args call s).sp.length) :
    ∀ x ∈ [Ctl.checkStacks (codeEntered entry args call s), .next s], Within call.rest x := by
  have hpos := List.length_pos_iff.mpr hne
  obtain ⟨hlo, hhi⟩ := h.applies.sp_length hne
  rw [length_codeEntered] at hroom
  intro x hx
  rcases List.mem_cons.mp hx with rfl | hx
  · refine ⟨fun m e => (by cases e), ?_, ?_⟩
    · show Room (codeEntered entry args call s) (codeEntered entry args call s).sp.length
      rw [length_codeEntered]
      exact hroom
    · show _ < (codeEntered entry args call s).sp.length
      rw [length_codeEntered]
      omega
  · obtain rfl := List.mem_singleton.mp hx
    exact ⟨fun m e => (by cases e), Room.mono (m := s) hroom hhi, hlo⟩

/-- What `check_stacks` lets through is at the `GRAB`, or at the `RESTART` in front of
    it, which puts the held arguments back. -/
theorem Application.checked (hb : Benign rt) (h : Application c entry n args call s)
    (hne : call.args ≠ []) {y : Machine ω}
    (hy : machineStep rt act (.checkStacks (codeEntered entry args call s)) = .ok (.next y)) :
    y.sp = call.args ++ (call.frame.words ++ call.rest) ∧
      (args = [] ∧ AtGrab c entry n (args ++ call.args) call.frame call.rest y ∨
        args ≠ [] ∧ y.pc = entry - 4#64 ∧ ∃ z, machineStep rt act (.next y) = .ok (.next z) ∧
          z.dom = y.dom ∧ AtGrab c entry n (args ++ call.args) call.frame call.rest z) := by
  have hpos := List.length_pos_iff.mpr hne
  have hcar := checkStacks_carried hb.toCallsBack (m := codeEntered entry args call s) hy
  have hsp : y.sp = call.args ++ (call.frame.words ++ call.rest) := hcar.sp
  have hmem : y.mem.code = (codeEntered entry args call s).mem.code := hcar.code hb.toKeepsCode
  have hcode : CodeAt y.mem entry n := h.code.congr hmem
  refine ⟨hsp, ?_⟩
  by_cases hnil : args = []
  · subst hnil
    obtain ⟨hacc, hc⟩ : s.accu = c ∧ codeVal s.mem.heap c = .ok entry := h.holds
    exact Or.inl ⟨rfl, hcar.pc, hsp, hcar.env.trans hacc, hcar.extraArgs, hcode⟩
  · have hholds := h.holds
    unfold Holds at hholds
    rw [if_neg hnil] at hholds
    obtain ⟨b, hacc, hget⟩ := hholds
    have hpc : y.pc = entry - 4#64 := by
      rw [hcar.pc]
      exact if_neg hnil
    have hop : executing (.next y) = some .RESTART := by
      show decode (y.mem.code y.pc) = _
      rw [hpc]
      exact hcode.restart
    have hr := restart_step rt act hop (hcar.env.trans hacc)
      (closure_carried hb hcar hget rfl)
    refine Or.inr ⟨hnil, hpc, _, hr, rfl, ?_, ?_, rfl, ?_, hcode⟩
    · show y.pc + 4#64 = entry
      rw [hpc, BitVec.sub_add_cancel]
    · show args ++ y.sp = _
      rw [hsp, List.append_assoc]
    · show y.extraArgs + _ = _
      rw [hcar.extraArgs]
      show BitVec.ofNat 63 _ + BitVec.ofNat 63 _ = _
      rw [← BitVec.ofNat_add, List.length_append]
      congr 1
      omega

theorem AtGrab.sp_length (h : AtGrab c entry n args fr rest m) :
    m.sp.length = args.length + 3 + rest.length := by
  rw [h.sp]
  simp only [Frame.words, List.length_append, List.length_cons, List.length_nil]
  omega

theorem AtGrab.within (h : AtGrab c entry n (args ++ as) fr rest m)
    (hroom : Room m m.sp.length) (hne : as ≠ []) : Within rest (.next m) := by
  have hpos := List.length_pos_iff.mpr hne
  refine ⟨fun m e => (by cases e), hroom, ?_⟩
  show rest.length < m.sp.length
  rw [h.sp_length]
  omega

/-- An application that has room gets as far as the `GRAB`: the held arguments are back
    on the stack in front of the new ones. -/
theorem Application.grab (hb : Benign rt) (h : Application c entry n args call s)
    (hne : call.args ≠ []) (hroom : HasRoom rt act args.length s) :
    ∃ z past, Run (machineStep rt act) (.next s) past (.next z) ∧ past ≠ [] ∧
      (∀ x ∈ past, Within call.rest x) ∧ Room z z.sp.length ∧
      AtGrab c entry n (args ++ call.args) call.frame call.rest z := by
  have hpos := List.length_pos_iff.mpr hne
  have hstep := h.enters rt act hne
  obtain ⟨x, y, hx, hfirst, hy, hlast⟩ := hroom
  obtain rfl := Ctl.checkStacks.inj (Except.ok.inj (hx.symm.trans hstep))
  have hrun := (Run.start.snoc hstep).snoc hy
  have hpast := h.before hne hfirst
  obtain ⟨hsp, ⟨rfl, hgrab⟩ | ⟨-, -, z, hz, hdom, hgrab⟩⟩ := h.checked hb hne hy
  · exact ⟨y, _, hrun, List.cons_ne_nil _ _, hpast, hlast.mono (by simp), hgrab⟩
  · have hylen : y.sp.length = call.args.length + 3 + call.rest.length := by
      rw [hsp]
      simp only [Frame.words, List.length_append, List.length_cons, List.length_nil]
      omega
    refine ⟨z, _, hrun.snoc hz, List.cons_ne_nil _ _, fun x hx => ?_, ?_, hgrab⟩
    · rcases List.mem_cons.mp hx with rfl | hx
      · refine ⟨fun m e => (by cases e), hlast.mono (by show y.sp.length ≤ _; omega), ?_⟩
        show call.rest.length < y.sp.length
        omega
      · exact hpast x hx
    · obtain ⟨i, hi, hle⟩ := hlast
      refine ⟨i, by rw [hdom]; exact hi, ?_⟩
      rw [hgrab.sp_length, List.length_append]
      omega

/-- An application that gets through has had room. -/
theorem Application.hasRoom (hb : Benign rt) (h : Application c entry n args call s)
    (hne : call.args ≠ []) (hreach : Reaches rt act call.rest s m)
    (hend : m.sp = call.rest ∨ m.pc = entry + 8#64 ∧ Room m m.sp.length) :
    HasRoom rt act args.length s := by
  have hstep := h.enters rt act hne
  obtain ⟨past, hrun, hsome, hpast⟩ := hreach
  -- the first step enters the code, the second one is `check_stacks`
  rcases hrun.first with ⟨rfl, -⟩ | ⟨u, past1, rfl, hu, hrun1⟩
  · exact absurd rfl hsome
  obtain rfl := Except.ok.inj (hu.symm.trans hstep)
  rcases hrun1.first with ⟨-, he⟩ | ⟨v, past2, rfl, hv, hrun2⟩
  · cases he
  have hfirst := (hpast (.checkStacks (codeEntered entry args call s)) (by simp)).2.1
  obtain ⟨y, rfl⟩ : ∃ y, v = .next y := by
    rcases checkStacks_ends hv with hy | ⟨e, rfl⟩
    · exact hy
    · have hmem := hrun2.start_mem
      rcases List.mem_cons.mp hmem with he | hmem
      · cases he
      · exact absurd rfl ((hpast _ (by simp [hmem])).1 e)
  refine ⟨_, y, hstep, hfirst, hv, ?_⟩
  obtain ⟨hsp, hcases⟩ := h.checked hb hne hv
  have hlong : y.sp ≠ call.rest := by
    intro e
    have hlen := congrArg List.length (e.symm.trans hsp)
    simp only [Frame.words, List.length_append, List.length_cons, List.length_nil] at hlen
    omega
  rcases hcases with ⟨rfl, hgrab⟩ | ⟨-, hpc, z, hz, hdom, hgrab⟩
  · have hy : Room y y.sp.length := by
      rcases List.mem_cons.mp hrun2.start_mem with he | hmem
      · obtain rfl := Ctl.next.inj he
        rcases hend with hend | ⟨-, hroom⟩
        · exact absurd hend hlong
        · exact hroom
      · exact (hpast (.next y) (by simp [hmem])).2.1
    exact hy.mono (by simp)
  · rcases hrun2.first with ⟨-, he⟩ | ⟨w, past3, rfl, hw, hrun3⟩
    · obtain rfl := Ctl.next.inj he
      rcases hend with hend | ⟨hend, -⟩
      · exact absurd hend hlong
      · rw [hpc] at hend
        exact absurd hend (by bv_omega)
    obtain rfl := Except.ok.inj (hw.symm.trans hz)
    have hzroom : Room z z.sp.length := by
      rcases List.mem_cons.mp hrun3.start_mem with he | hmem
      · obtain rfl := Ctl.next.inj he
        rcases hend with hend | ⟨-, hroom⟩
        · have hlen := hgrab.sp_length
          rw [hend] at hlen
          omega
        · exact hroom
      · exact (hpast (.next z) (by simp [hmem])).2.1
    obtain ⟨i, hi, hle⟩ := hzroom
    rw [hdom] at hi
    refine ⟨i, hi, ?_⟩
    rw [hgrab.sp_length, List.length_append] at hle
    rw [hsp]
    simp only [Frame.words, List.length_append, List.length_cons, List.length_nil]
    omega

/-! ## `GRAB` -/

theorem AtGrab.operand (h : AtGrab c entry n args fr rest m) :
    (fetched (.next m)).operand.toInt + 1 = n := by
  show (m.mem.code (m.pc + 4#64)).toInt + 1 = n
  rw [h.pc]
  exact h.code.required

theorem AtGrab.executing (h : AtGrab c entry n args fr rest m) :
    executing (.next m) = some .GRAB := by
  show decode (m.mem.code m.pc) = _
  rw [h.pc]
  exact h.code.grab

/-- With enough arguments `GRAB` goes on to the body. -/
theorem AtGrab.enough (rt : Runtime ω) (act : Activation)
    (h : AtGrab c entry n args fr rest m) (hroom : Room m m.sp.length) (hn : 0 < n)
    (henough : n ≤ args.length) (hlt : args.length < 2 ^ 62) :
    ∃ m', machineStep rt act (.next m) = .ok (.next m') ∧ AtBody c entry n args fr rest m' := by
  have hop := h.operand
  have hreq : (fetched (.next m)).operand.toInt ≤ m.extraArgs.toInt := by
    rw [h.extraArgs, toInt_count (by omega)]
    omega
  refine ⟨{ m with
      pc := m.pc + 4#64 + 4#64,
      extraArgs := m.extraArgs - BitVec.ofInt 63 (fetched (.next m)).operand.toInt }, ?_, ?_⟩
  · rw [machineStep_executing h.executing]
    exact if_pos hreq
  · refine ⟨?_, h.sp, h.env, ?_, hroom⟩
    · show m.pc + 4#64 + 4#64 = _
      rw [h.pc, BitVec.add_assoc]
      rfl
    · show m.extraArgs - BitVec.ofInt 63 _ = _
      have hnat : (fetched (.next m)).operand.toInt = ((n - 1 : Nat) : Int) := by omega
      have hsum : args.length - 1 = args.length - n + (n - 1) := by omega
      rw [hnat, h.extraArgs, BitVec.ofInt_natCast, hsum, BitVec.ofNat_add, BitVec.add_sub_cancel]

theorem spTake_append (xs ys : List Value) : spTake (xs ++ ys) xs.length = .ok xs := by
  unfold spTake
  rw [if_pos (by simp), List.take_left]

/-- `numArgs` of `GRAB`. -/
theorem AtGrab.numArgs (h : AtGrab c entry n args fr rest m) (hne : args ≠ [])
    (hlt : args.length < 2 ^ 62) : (1 + m.extraArgs).toNat = args.length := by
  have hpos := List.length_pos_iff.mpr hne
  have hsum : 1 + (args.length - 1) = args.length := by omega
  rw [h.extraArgs]
  show (BitVec.ofNat 63 1 + BitVec.ofNat 63 (args.length - 1)).toNat = _
  rw [← BitVec.ofNat_add, hsum, BitVec.toNat_ofNat, Nat.mod_eq_of_lt (by omega)]

/-- The end of `GRAB` once the block `v` for `k` arguments is allocated. -/
def finishPartial (k : Nat) (v : Value) (m : Machine ω) : C (Ctl (Machine ω)) := do
  let args ← spTake m.sp k
  let m ← initFields m v closureTag
    (ofCode (m.pc - 12#64) :: .word (makeClosinfo 0 2) :: m.env :: args)
  doReturn { m with accu := v, sp := m.sp.drop k }

/-- `GRAB` returns the partial closure to the caller. -/
theorem finishPartial_ok {b : Nat} (hsp : m.sp = args ++ (fr.words ++ rest)) :
    finishPartial args.length (.ptr b 0) m = .ok (.next { m with
      pc := fr.pc, env := fr.env, extraArgs := fr.extraArgs, sp := rest, accu := .ptr b 0,
      mem := { m.mem with
        heap := m.mem.heap.put b
          ⟨closureTag,
            ofCode (m.pc - 12#64) :: .word (makeClosinfo 0 2) :: m.env :: args⟩ } }) := by
  refine bind_eq_ok.mpr ⟨args, by rw [hsp]; exact spTake_append _ _, bind_eq_ok.mpr
    ⟨_, rfl, ?_⟩⟩
  dsimp only
  rw [hsp, List.drop_left]
  exact bind_eq_ok.mpr ⟨fr.pc, rfl, bind_eq_ok.mpr ⟨_, longVal_valLong _, rfl⟩⟩

/-- With too few arguments `GRAB` allocates. -/
theorem AtGrab.alloc (h : AtGrab c entry n args fr rest m) (hne : args ≠ [])
    (hfew : args.length < n) (hlt : args.length < 2 ^ 62) :
    machineStep rt act (.next m)
      = allocSmall rt { m with pc := m.pc + 4#64 + 4#64 } (args.length + 3) closureTag
          (finishPartial args.length) := by
  have hpos := List.length_pos_iff.mpr hne
  have hop := h.operand
  have hreq : ¬ (fetched (.next m)).operand.toInt ≤ m.extraArgs.toInt := by
    rw [h.extraArgs, toInt_count (by omega)]
    omega
  rw [machineStep_executing h.executing, ← h.numArgs hne hlt]
  exact if_neg hreq

/-- A partial closure that fits in the minor heap is returned to the caller. -/
theorem AtGrab.few (act : Activation) (hb : Benign rt)
    (h : AtGrab c entry n args fr rest m) (hroom : Room m m.sp.length) (hne : args ≠ [])
    (hfew : args.length < n) (hlt : args.length + 3 ≤ maxYoungWosize) :
    ∃ m', machineStep rt act (.next m) = .ok (.next m') ∧ Returned c entry args fr rest m' := by
  have hyoung : maxYoungWosize = 256 := rfl
  obtain ⟨i, hi, -⟩ := hroom
  obtain ⟨m1, hgc, hp⟩ := gcLoop_givesBack hb.givesBack
    (rt.gcRounds m.mem m.dom) (m := { m with pc := m.pc + 4#64 + 4#64 }) hi
  have halloc := allocSmall_eq (m := { m with pc := m.pc + 4#64 + 4#64 })
    (finishPartial args.length) (Nat.le_add_left _ _) hlt (show closureTag < 256 by decide) hgc
  rw [h.alloc hne hfew (by omega), halloc]
  have hsp : m1.sp = args ++ (fr.words ++ rest) := hp.sp.trans h.sp
  have hpc : m1.pc - 12#64 = entry - 4#64 := by
    rw [hp.pc]
    show m.pc + 4#64 + 4#64 - 12#64 = _
    rw [h.pc]
    bv_omega
  have hput : ∀ fields, ((m1.mem.heap.alloc ⟨closureTag, fields⟩).put m1.mem.heap.fresh
      ⟨closureTag, partialFields c entry args⟩).get m1.mem.heap.fresh
        = some ⟨closureTag, partialFields c entry args⟩ :=
    fun _ => Store.get_put_self _ (Store.get_alloc_fresh _ _)
  refine ⟨_, finishPartial_ok hsp, rfl, rfl, rfl, rfl, ?_⟩
  unfold Holds
  rw [if_neg hne]
  refine ⟨_, rfl, ?_⟩
  dsimp only
  rw [hpc, hp.env, h.env]
  exact hput _

/-- A partial closure that does not fit fails the assertion of `Alloc_small`. -/
theorem AtGrab.tooMany (h : AtGrab c entry n args fr rest m) (hne : args ≠ [])
    (hfew : args.length < n) (hlt : args.length < 2 ^ 62)
    (hmany : maxYoungWosize < args.length + 3) :
    machineStep rt act (.next m) = .error .camlAssert := by
  rw [h.alloc hne hfew hlt]
  have hno : ¬ args.length + 3 ≤ maxYoungWosize := by omega
  unfold allocSmall camlAssert
  simp [hno, closureTag, bind, Except.bind]

/-! ## Batch after batch -/

theorem CodeAt.arity_le {mem : Mem} (h : CodeAt mem entry n) : n ≤ 2 ^ 31 := by
  have hlt := BitVec.toInt_lt (x := mem.code (entry + 4#64))
  have hreq := h.required
  omega

/-- The last application reaches the body exactly when it has room. -/
theorem Application.body (act : Activation) (hb : Benign rt)
    (h : Application c entry n args call s) (hn : 0 < n) (hne : call.args ≠ [])
    (hfew : args.length < n) (henough : n ≤ (args ++ call.args).length) :
    (∃ m, Reaches rt act call.rest s m ∧
      AtBody c entry n (args ++ call.args) call.frame call.rest m) ↔
        HasRoom rt act args.length s := by
  constructor
  · rintro ⟨m, hreach, hbody⟩
    exact h.hasRoom hb hne hreach (Or.inr ⟨hbody.pc, hbody.room⟩)
  · intro hroom
    obtain ⟨z, past, hrun, -, hpast, hzroom, hgrab⟩ := h.grab hb hne hroom
    have harity := h.code.arity_le
    have hcount := h.applies.length_lt
    obtain ⟨m, hm, hbody⟩ := hgrab.enough rt act hzroom hn henough
      (by rw [List.length_append]; omega)
    refine ⟨m, ⟨_, hrun.snoc hm, List.cons_ne_nil _ _, fun x hx => ?_⟩, hbody⟩
    rcases List.mem_cons.mp hx with rfl | hx
    · exact hgrab.within hzroom hne
    · exact hpast x hx

/-- **PARTIAL APPLICATION**: it returns a closure exactly when it has room and that
    closure fits in the minor heap. -/
theorem Application.returns (act : Activation) (hb : Benign rt)
    (h : Application c entry n args call s) (hne : call.args ≠ [])
    (hfew : (args ++ call.args).length < n) :
    (∃ m, Reaches rt act call.rest s m ∧
      Returned c entry (args ++ call.args) call.frame call.rest m) ↔
        (args ++ call.args).length + 3 ≤ maxYoungWosize ∧ HasRoom rt act args.length s := by
  have harity := h.code.arity_le
  have hne' : args ++ call.args ≠ [] := fun e => hne (List.append_eq_nil_iff.mp e).2
  constructor
  · rintro ⟨m, hreach, hret⟩
    have hroom := h.hasRoom hb hne hreach (Or.inl hret.sp)
    refine ⟨?_, hroom⟩
    obtain ⟨z, past, hrun, -, hpast, hzroom, hgrab⟩ := h.grab hb hne hroom
    obtain ⟨past', hrun', -, -⟩ := hreach
    by_contra hmany
    -- stuck at the `GRAB`, whose stack still has the frame of the caller
    have hmem := hrun.mem_of_stuck (hgrab.tooMany hne' hfew (by omega) (by omega)) hrun'
    rcases List.mem_cons.mp hmem with hz | hmem
    · have hlen := hgrab.sp_length
      rw [← Ctl.next.inj hz, hret.sp] at hlen
      omega
    · have hlt : call.rest.length < m.sp.length := (hpast _ hmem).2.2
      rw [hret.sp] at hlt
      exact Nat.lt_irrefl _ hlt
  · rintro ⟨hle, hroom⟩
    obtain ⟨z, past, hrun, -, hpast, hzroom, hgrab⟩ := h.grab hb hne hroom
    obtain ⟨m, hm, hret⟩ := hgrab.few act hb hzroom hne' hfew hle
    refine ⟨m, ⟨_, hrun.snoc hm, List.cons_ne_nil _ _, fun x hx => ?_⟩, hret⟩
    rcases List.mem_cons.mp hx with rfl | hx
    · exact hgrab.within hzroom hne
    · exact hpast x hx

/-- An application returns once. -/
theorem Reaches.unique (h : Reaches rt act rest s m) (hm : m.sp = rest)
    (h' : Reaches rt act rest s m') (hm' : m'.sp = rest) : m = m' := by
  obtain ⟨past, hrun, -, hpast⟩ := h
  obtain ⟨past', hrun', -, hpast'⟩ := h'
  have hnot : ∀ {x : Machine ω}, x.sp = rest → ¬ Within rest (.next x) := by
    intro x hx hin
    have hlt : rest.length < x.sp.length := hin.2.2
    rw [hx] at hlt
    exact Nat.lt_irrefl _ hlt
  rcases hrun.linear hrun' with hmem | hmem
  · rcases List.mem_cons.mp hmem with he | hmem
    · exact (Ctl.next.inj he).symm
    · exact absurd (hpast _ hmem) (hnot hm')
  · rcases List.mem_cons.mp hmem with he | hmem
    · exact Ctl.next.inj he
    · exact absurd (hpast' _ hmem) (hnot hm)

theorem toInt_operand {k : Nat} (h : k ≤ 1000) : (BitVec.ofNat 32 k).toInt = k := by
  rw [BitVec.toInt_eq_toNat_of_lt] <;> rw [BitVec.toNat_ofNat, Nat.mod_eq_of_lt] <;> omega

end CamlCurry
