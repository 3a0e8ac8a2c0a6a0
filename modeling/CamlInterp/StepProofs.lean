import CamlInterp.UpstreamProofs
import CamlInterp.InterpProofs
import CamlInterp.RunProofs

/-! # One step, taken apart

    What a step of `interp.c` can do, said once.  Whatever the hooks are, the
    registers and the memory move as in `ocaml/runtime/interp.c`, and the hooks'
    state moves by the block at the top of the loop followed by at most one
    more: the apply block in the four apply instructions, the return block in
    `RETURN`, nothing anywhere else. -/

namespace CamlStep

open CamlValue CamlOpcode CamlMachine CamlControl CamlInterp

variable {ω π : Type}

/-! ## The instruction a label is about to execute -/

/-- The instruction about to run: fetched at the top of the loop, or restarted
    at `dispatch_instr`. -/
def executing : Ctl (Machine ω) → Option Opcode
  | .next m => decode m.operand
  | .dispatch w _ => decode w
  | _ => none

/-- The instruction about to be fetched at the top of the loop. -/
def fetching : Ctl (Machine ω) → Option Opcode
  | .next m => decode m.operand
  | _ => none

/-- The machine an instruction body starts with. -/
def fetched : Ctl (Machine ω) → Machine ω
  | .next m => { m with toCore := m.toCore.advance }
  | c => c.state

/-- The four apply instructions. -/
def isApply : Opcode → Bool
  | .APPLY | .APPLY1 | .APPLY2 | .APPLY3 => true
  | _ => false

/-- The body of an apply instruction. -/
def callBody : Opcode → Core → C Core
  | .APPLY1 => apply1
  | .APPLY2 => apply2
  | .APPLY3 => apply3
  | _ => apply

/-- The code pointer an apply instruction is about to enter. -/
def applied (c : Ctl (Machine ω)) : Option CodePtr :=
  match executing c with
  | some op =>
      if isApply op then (codeVal c.state.mem.heap c.state.accu).toOption else none
  | none => none

/-! ## The switch -/

variable {hk : Hooks ω π} {rt : Runtime ω} {act : Activation} {op : Opcode}
  {s : State ω π}

theorem tail_eq (f : Core → C Core) (s : State ω π) :
    tail f s = keep s.prof (CamlUpstream.enter f s.machine) := by
  unfold tail CamlUpstream.enter keep
  cases onCore f s.machine with
  | error e => rfl
  | ok m => rfl

/-- Every instruction without profiling code is the one of the other source. -/
theorem exec_plain (ha : isApply op = false) (hr : op ≠ .RETURN) :
    exec hk rt act op s = keep s.prof (CamlUpstream.exec rt act op s.machine) := by
  cases op with
  | APPLY => exact nomatch ha
  | APPLY1 => exact nomatch ha
  | APPLY2 => exact nomatch ha
  | APPLY3 => exact nomatch ha
  | RETURN => exact absurd rfl hr
  | APPTERM => exact tail_eq appterm s
  | APPTERM1 => exact tail_eq appterm1 s
  | APPTERM2 => exact tail_eq appterm2 s
  | APPTERM3 => exact tail_eq appterm3 s
  | _ => rfl

theorem exec_apply (ha : isApply op = true) :
    exec hk rt act op s = call hk (callBody op) s := by
  cases op with
  | APPLY => rfl
  | APPLY1 => rfl
  | APPLY2 => rfl
  | APPLY3 => rfl
  | _ => exact nomatch ha

theorem upstream_exec_apply (ha : isApply op = true) (m : Machine ω) :
    CamlUpstream.exec rt act op m = CamlUpstream.enter (callBody op) m := by
  cases op with
  | APPLY => rfl
  | APPLY1 => rfl
  | APPLY2 => rfl
  | APPLY3 => rfl
  | _ => exact nomatch ha

theorem enterClosure_ok {c c' : Core} (h : enterClosure c = .ok c') :
    ∃ pc, codeVal c.mem.heap c.accu = .ok pc ∧ c' = { c with pc := pc, env := c.accu } := by
  obtain ⟨pc, hpc, hc⟩ := bind_eq_ok.mp h
  exact ⟨pc, hpc, (Except.ok.inj hc).symm⟩

/-- An apply instruction enters the code of the closure in `accu`. -/
theorem callBody_ok {c c' : Core} (h : callBody op c = .ok c') :
    codeVal c.mem.heap c.accu = .ok c'.pc ∧ c'.env = c.accu ∧ c'.accu = c.accu ∧
      c'.mem = c.mem := by
  have hargs : ∀ n, applyArgs n c = .ok c' → codeVal c.mem.heap c.accu = .ok c'.pc ∧
      c'.env = c.accu ∧ c'.accu = c.accu ∧ c'.mem = c.mem := by
    intro n hn
    obtain ⟨args, -, he⟩ := bind_eq_ok.mp hn
    obtain ⟨pc, hpc, rfl⟩ := enterClosure_ok he
    exact ⟨hpc, rfl, rfl, rfl⟩
  have happly : apply c = .ok c' → codeVal c.mem.heap c.accu = .ok c'.pc ∧
      c'.env = c.accu ∧ c'.accu = c.accu ∧ c'.mem = c.mem := by
    intro he
    obtain ⟨pc, hpc, rfl⟩ := enterClosure_ok he
    exact ⟨hpc, rfl, rfl, rfl⟩
  cases op with
  | APPLY1 => exact hargs 1 h
  | APPLY2 => exact hargs 2 h
  | APPLY3 => exact hargs 3 h
  | _ => exact happly h

theorem keep_eq_ok {prof : π} {x : C (Ctl (Machine ω))} {c : Ctl (State ω π)} :
    keep prof x = .ok c ↔ ∃ cm, x = .ok cm ∧ c = cm.map (fun m => ⟨m, prof⟩) := by
  unfold keep
  rw [bind_eq_ok]
  constructor
  · rintro ⟨cm, hx, hc⟩
    exact ⟨cm, hx, (Except.ok.inj hc).symm⟩
  · rintro ⟨cm, hx, rfl⟩
    exact ⟨cm, hx, rfl⟩

theorem call_eq_ok {f : Core → C Core} {c : Ctl (State ω π)} :
    call hk f s = .ok c ↔ ∃ m p, onCore f s.machine = .ok m ∧
      hk.onApply m.pc s.prof = .ok p ∧ c = .checkStacks ⟨m, p⟩ := by
  unfold call
  rw [bind_eq_ok]
  constructor
  · rintro ⟨m, hm, hrest⟩
    obtain ⟨p, hp, hc⟩ := bind_eq_ok.mp hrest
    exact ⟨m, p, hm, hp, (Except.ok.inj hc).symm⟩
  · rintro ⟨m, p, hm, hp, rfl⟩
    exact ⟨m, hm, bind_eq_ok.mpr ⟨p, hp, rfl⟩⟩

/-- `RETURN` runs the return block and then what the other source does. -/
theorem ret_eq_ok {c : Ctl (State ω π)} :
    CamlInterp.ret hk s = .ok c ↔ ∃ cm p, CamlUpstream.ret s.machine = .ok cm ∧
      hk.onReturn s.prof = .ok p ∧ c = cm.map (fun m => ⟨m, p⟩) := by
  unfold CamlInterp.ret CamlUpstream.ret
  cases onCore CamlInstr.pop s.machine with
  | error e =>
      constructor
      · intro h; exact nomatch h
      · rintro ⟨cm, p, h, -⟩; exact nomatch h
  | ok m =>
      simp only [bind, Except.bind]
      by_cases hx : (0#63).slt m.extraArgs = true
      · rw [if_pos hx, if_pos hx]
        unfold thenNext
        cases onCore returnSurplus m with
        | error e =>
            constructor
            · intro h; exact nomatch h
            · rintro ⟨cm, p, h, -⟩; exact nomatch h
        | ok m' =>
            cases hk.onReturn s.prof with
            | error e =>
                constructor
                · intro h; exact nomatch h
                · rintro ⟨cm, p, -, h, -⟩; exact nomatch h
            | ok p =>
                constructor
                · intro h; exact ⟨_, p, rfl, rfl, (Except.ok.inj h).symm⟩
                · rintro ⟨cm, p', hm, hp, rfl⟩
                  rw [← Except.ok.inj hm, ← Except.ok.inj hp]
                  rfl
      · rw [if_neg hx, if_neg hx]
        cases hk.onReturn s.prof with
        | error e =>
            constructor
            · intro h; exact nomatch h
            · rintro ⟨cm, p, -, h, -⟩; exact nomatch h
        | ok p =>
            show keep p (doReturn m) = .ok c ↔ _
            rw [keep_eq_ok]
            constructor
            · rintro ⟨cm, hm, rfl⟩; exact ⟨cm, p, hm, rfl, rfl⟩
            · rintro ⟨cm, p', hm, hp, rfl⟩
              rw [← Except.ok.inj hp]
              exact ⟨cm, hm, rfl⟩

/-! ## Steps -/

/-- A step of the machine alone. -/
def machineStep (rt : Runtime ω) (act : Activation) : Ctl (Machine ω) → C (Ctl (Machine ω))
  | .next m =>
      CamlUpstream.execWord rt act m.operand { m with toCore := m.toCore.advance }
  | .dispatch w m => CamlUpstream.execWord rt act w m
  | .checkStacks m => checkStacks rt m
  | .raiseNotrace m => raiseNotrace act m
  | .halted _ _ => .error .returned

/-- A label with an instruction runs that instruction. -/
theorem machineStep_executing {c : Ctl (Machine ω)} (h : executing c = some op) :
    machineStep rt act c = CamlUpstream.exec rt act op (fetched c) := by
  have hword : ∀ (w : OpcodeWord) (m : Machine ω), decode w = some op →
      CamlUpstream.execWord rt act w m = CamlUpstream.exec rt act op m := by
    intro w m hw
    unfold CamlUpstream.execWord
    rw [hw]
  cases c with
  | next m => exact hword m.operand _ h
  | dispatch w m => exact hword w m h
  | checkStacks m => exact nomatch h
  | raiseNotrace m => exact nomatch h
  | halted r m => exact nomatch h

theorem execWord_decodes {w : OpcodeWord} {m : Machine ω} {c' : Ctl (Machine ω)}
    (h : CamlUpstream.execWord rt act w m = .ok c') :
    ∃ op, decode w = some op ∧ CamlUpstream.exec rt act op m = .ok c' := by
  unfold CamlUpstream.execWord at h
  cases hw : decode w with
  | none => rw [hw] at h; exact nomatch h
  | some op => rw [hw] at h; exact ⟨op, rfl, h⟩

/-- A step runs an instruction, or starts at one of the two other labels. -/
theorem machineStep_cases {c c' : Ctl (Machine ω)} (h : machineStep rt act c = .ok c') :
    (∃ op, executing c = some op ∧ CamlUpstream.exec rt act op (fetched c) = .ok c') ∨
      (∃ m, c = .checkStacks m ∧ checkStacks rt m = .ok c') ∨
      ∃ m, c = .raiseNotrace m ∧ raiseNotrace act m = .ok c' := by
  cases c with
  | next m => exact Or.inl (execWord_decodes h)
  | dispatch w m => exact Or.inl (execWord_decodes h)
  | checkStacks m => exact Or.inr (Or.inl ⟨m, rfl, h⟩)
  | raiseNotrace m => exact Or.inr (Or.inr ⟨m, rfl, h⟩)
  | halted r m => exact nomatch h

@[simp] theorem fetched_dom (c : Ctl (Machine ω)) : (fetched c).dom = c.state.dom := by
  cases c <;> rfl

@[simp] theorem fetched_mem (c : Ctl (Machine ω)) : (fetched c).mem = c.state.mem := by
  cases c <;> rfl

@[simp] theorem fetched_sp (c : Ctl (Machine ω)) : (fetched c).sp = c.state.sp := by
  cases c <;> rfl

@[simp] theorem fetched_accu (c : Ctl (Machine ω)) : (fetched c).accu = c.state.accu := by
  cases c <;> rfl

/-- Forget the hooks' state. -/
def machineOf (c : Ctl (State ω π)) : Ctl (Machine ω) := c.map State.machine

@[simp] theorem machineOf_map (cm : Ctl (Machine ω)) (p : π) :
    machineOf (cm.map (fun m => (⟨m, p⟩ : State ω π))) = cm := by
  unfold machineOf
  rw [Ctl.map_map, Ctl.map_id]

/-- The block at the top of the loop, where there is one. -/
def topBlock (hk : Hooks ω π) : Ctl (State ω π) → C π
  | .next s => hk.onDispatch s.machine s.prof
  | c => .ok c.state.prof

/-- The hooks' state after the block that follows, `p'`, from the one before. -/
inductive Moves (hk : Hooks ω π) (c : Ctl (Machine ω)) (p : π) : π → Prop where
  | stay : (∀ op, executing c = some op → isApply op = false ∧ op ≠ .RETURN) →
      Moves hk c p p
  | apply {f : CodePtr} {p' : π} : applied c = some f → hk.onApply f p = .ok p' →
      Moves hk c p p'
  | ret {p' : π} : executing c = some .RETURN → hk.onReturn p = .ok p' → Moves hk c p p'

variable {c c' : Ctl (State ω π)}

/-- One instruction. -/
theorem execWord_ok {w : OpcodeWord} (h : execWord hk rt act w s = .ok c') :
    CamlUpstream.execWord rt act w s.machine = .ok (machineOf c') ∧
      Moves hk (.dispatch w s.machine) s.prof c'.state.prof := by
  unfold execWord at h
  unfold CamlUpstream.execWord
  cases hw : decode w with
  | none => rw [hw] at h; exact nomatch h
  | some op =>
      have hex : executing (.dispatch w s.machine) = some op := hw
      rw [hw] at h
      change exec hk rt act op s = .ok c' at h
      show CamlUpstream.exec rt act op s.machine = _ ∧ _
      by_cases ha : isApply op = true
      · rw [exec_apply ha] at h
        obtain ⟨m, p, hm, hp, rfl⟩ := call_eq_ok.mp h
        obtain ⟨core, hcore, hmc⟩ := bind_eq_ok.mp hm
        have hpc : core.pc = m.pc := by rw [← Except.ok.inj hmc]
        refine ⟨?_, Moves.apply (f := m.pc) ?_ hp⟩
        · rw [upstream_exec_apply ha]
          exact bind_eq_ok.mpr ⟨m, hm, rfl⟩
        · unfold applied
          rw [hex]
          simp only [ha, if_true]
          show (codeVal s.machine.mem.heap s.machine.accu).toOption = _
          rw [(callBody_ok hcore).1, ← hpc]
          rfl
      · have ha' : isApply op = false := by simpa using ha
        by_cases hr : op = .RETURN
        · subst hr
          obtain ⟨cm, p, hm, hp, rfl⟩ := ret_eq_ok.mp h
          refine ⟨by rw [machineOf_map]; exact hm, Moves.ret hex ?_⟩
          rw [Ctl.state_map]
          exact hp
        · rw [exec_plain ha' hr] at h
          obtain ⟨cm, hm, rfl⟩ := keep_eq_ok.mp h
          refine ⟨by rw [machineOf_map]; exact hm, ?_⟩
          rw [Ctl.state_map]
          refine Moves.stay (fun op' hop' => ?_)
          rw [hex] at hop'
          rw [← Option.some.inj hop']
          exact ⟨ha', hr⟩

/-- **INVERSION**: what a step does to the machine and to the hooks' state. -/
theorem step_ok (h : step hk rt act c = .ok c') :
    machineStep rt act (machineOf c) = .ok (machineOf c') ∧
      ∃ p, topBlock hk c = .ok p ∧ Moves hk (machineOf c) p c'.state.prof := by
  have hplain : ∀ {x : C (Ctl (Machine ω))} {p : π}, keep p x = .ok c' →
      x = .ok (machineOf c') ∧ c'.state.prof = p := by
    intro x p hx
    obtain ⟨cm, hm, rfl⟩ := keep_eq_ok.mp hx
    exact ⟨by rw [machineOf_map]; exact hm, by rw [Ctl.state_map]⟩
  cases c with
  | next s =>
      obtain ⟨p, hp, hx⟩ := bind_eq_ok.mp h
      obtain ⟨hm, hmv⟩ := execWord_ok hx
      refine ⟨hm, p, hp, ?_⟩
      cases hmv with
      | stay hs => exact Moves.stay hs
      | apply ha hp' => exact Moves.apply ha hp'
      | ret hr hp' => exact Moves.ret hr hp'
  | dispatch w s =>
      obtain ⟨hm, hmv⟩ := execWord_ok h
      exact ⟨hm, s.prof, rfl, hmv⟩
  | checkStacks s =>
      obtain ⟨hm, hp⟩ := hplain h
      exact ⟨hm, s.prof, rfl, hp ▸ Moves.stay (fun op hop => nomatch hop)⟩
  | raiseNotrace s =>
      obtain ⟨hm, hp⟩ := hplain h
      exact ⟨hm, s.prof, rfl, hp ▸ Moves.stay (fun op hop => nomatch hop)⟩
  | halted r s => exact nomatch h

/-! ## Steps with hooks that do not fail -/

theorem map_keep (p : π) (x : C (Ctl (Machine ω))) : (keep p x).map machineOf = x := by
  cases x with
  | error e => rfl
  | ok cm => exact congrArg Except.ok (machineOf_map cm p)

theorem map_call {f : Core → C Core}
    (ha : ∀ m, onCore f s.machine = .ok m → ∃ p', hk.onApply m.pc s.prof = .ok p') :
    (call hk f s).map machineOf = CamlUpstream.enter f s.machine := by
  unfold call CamlUpstream.enter
  cases hm : onCore f s.machine with
  | error e => rfl
  | ok m =>
      obtain ⟨p', hp'⟩ := ha m hm
      simp only [bind, Except.bind, hp']
      rfl

/-- `RETURN` with its hook is `RETURN`. -/
theorem map_ret {p' : π} (hr : hk.onReturn s.prof = .ok p') :
    (CamlInterp.ret hk s).map machineOf = CamlUpstream.ret s.machine := by
  unfold CamlInterp.ret CamlUpstream.ret
  cases onCore CamlInstr.pop s.machine with
  | error e => rfl
  | ok m =>
      simp only [bind, Except.bind, hr]
      by_cases hx : (0#63).slt m.extraArgs = true
      · rw [if_pos hx, if_pos hx]
        unfold thenNext
        cases onCore returnSurplus m with
        | error e => rfl
        | ok m' => rfl
      · rw [if_neg hx, if_neg hx]
        exact map_keep p' (doReturn m)

/-- An instruction with its hooks is the instruction. -/
theorem map_execWord {w : OpcodeWord}
    (ha : ∀ f, applied (.dispatch w s.machine) = some f → ∃ p', hk.onApply f s.prof = .ok p')
    (hr : decode w = some .RETURN → ∃ p', hk.onReturn s.prof = .ok p') :
    (execWord hk rt act w s).map machineOf = CamlUpstream.execWord rt act w s.machine := by
  unfold execWord CamlUpstream.execWord
  cases hw : decode w with
  | none => rfl
  | some op =>
      show (exec hk rt act op s).map machineOf = CamlUpstream.exec rt act op s.machine
      by_cases hap : isApply op = true
      · rw [exec_apply hap, upstream_exec_apply hap]
        refine map_call (fun m hm => ha m.pc ?_)
        obtain ⟨core, hcore, hmc⟩ := bind_eq_ok.mp hm
        have hpc : core.pc = m.pc := by rw [← Except.ok.inj hmc]
        simp only [applied, executing, hw, hap, if_true, Ctl.state]
        rw [(callBody_ok hcore).1, ← hpc]
        rfl
      · by_cases hret : op = .RETURN
        · subst hret
          obtain ⟨p', hp'⟩ := hr hw
          exact map_ret hp'
        · rw [exec_plain (by simpa using hap) hret]
          exact map_keep s.prof _

/-- **TRANSPARENCY OF HOOKS**: as long as they do not fail, erasing their state
    leaves the machine's own step, errors included. -/
theorem map_step {p : π} (htop : topBlock hk c = .ok p)
    (ha : ∀ f, applied (machineOf c) = some f → ∃ p', hk.onApply f p = .ok p')
    (hr : executing (machineOf c) = some .RETURN → ∃ p', hk.onReturn p = .ok p') :
    (step hk rt act c).map machineOf = machineStep rt act (machineOf c) := by
  cases c with
  | next s =>
      have hp : hk.onDispatch s.machine s.prof = .ok p := htop
      show (hk.onDispatch s.machine s.prof >>= _).map machineOf = _
      rw [hp]
      exact map_execWord (s := ⟨{ s.machine with toCore := s.machine.toCore.advance }, p⟩) ha hr
  | dispatch w s =>
      have hp : s.prof = p := Except.ok.inj htop
      subst hp
      exact map_execWord ha hr
  | checkStacks s => exact map_keep s.prof _
  | raiseNotrace s => exact map_keep s.prof _
  | halted r s => rfl

/-- The build without DEBUG takes the machine's own steps. -/
theorem released_step (c : Ctl (State ω Unit)) :
    (step released rt act c).map machineOf = machineStep rt act (machineOf c) := by
  refine map_step (p := ()) ?_ (fun f _ => ⟨(), rfl⟩) (fun _ => ⟨(), rfl⟩)
  cases c <;> rfl

/-! ## The loop of `Alloc_small` -/

/-- A relation that `Enter_gc` respects holds of every end of the loop. -/
theorem gcLoop_respects {R : Machine ω → Machine ω ⊕ Value × Mem × Domain ω → Prop}
    (hdone : ∀ m, R m (.inl m))
    (hraised : ∀ {m e}, enterGc rt m = .ok (.inr e) → R m (.inr e))
    (hback : ∀ {m m1 r}, enterGc rt m = .ok (.inl m1) → R m1 r → R m r)
    {n : Nat} {m : Machine ω} {r : Machine ω ⊕ Value × Mem × Domain ω}
    (h : gcLoop rt n m = .ok r) : R m r := by
  induction n generalizing m with
  | zero =>
      obtain rfl := Except.ok.inj h
      exact hdone m
  | succ n ih =>
      obtain ⟨r', hr', h⟩ := bind_eq_ok.mp h
      cases r' with
      | inl m1 => exact hback hr' (ih h)
      | inr e =>
          obtain rfl := Except.ok.inj h
          exact hraised hr'

/-- Where every `Enter_gc` comes back and keeps `P`, so does the loop. -/
theorem gcLoop_returns {P : Machine ω → Prop} {R : Machine ω → Machine ω → Prop}
    (hdone : ∀ m, R m m)
    (hback : ∀ {m}, P m → ∃ m1, enterGc rt m = .ok (.inl m1) ∧ P m1 ∧
      ∀ {m2}, R m1 m2 → R m m2)
    (n : Nat) {m : Machine ω} (hm : P m) :
    ∃ m', gcLoop rt n m = .ok (.inl m') ∧ P m' ∧ R m m' := by
  induction n generalizing m with
  | zero => exact ⟨m, rfl, hm, hdone m⟩
  | succ n ih =>
      obtain ⟨m1, h1, hp1, htrans⟩ := hback hm
      obtain ⟨m2, h2, hp2, hr2⟩ := ih hp1
      exact ⟨m2, bind_eq_ok.mpr ⟨_, h1, h2⟩, hp2, htrans hr2⟩

end CamlStep
