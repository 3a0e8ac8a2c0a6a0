import CamlInterp.EffectProofs

/-! # `PERFORM` and the stack it captures

    `PERFORM` notes the current stack and its parent, then allocates the
    continuation.  The allocation may stop for pending actions, and these may
    call back into OCaml code on the current stack, which can outgrow it:
    `caml_try_realloc_stack` then frees the stack that was noted.  `Enter_gc`
    reloads `sp` from the stack that is current afterwards; the stack `PERFORM`
    writes to and hands out is the one from before. -/

namespace CamlPerform

open CellStore ParentChain CamlValue CamlOpcode CamlMachine CamlControl CamlStep CamlFiber
  CamlEffect

variable {ω : Type}

variable {rt : Runtime ω} {act : Activation} {m m' m1 : Machine ω} {dom dom' : Domain ω}

/-! ## Capturing -/

/-- The end of `PERFORM` once the continuation is allocated. -/
def finishPerform (oldStack parentStack : Nat) (cont : Value) (m : Machine ω) :
    C (Ctl (Machine ω)) := do
  let dom ← m.dom.setWords oldStack (suspended m)
  let dom := { dom with currentStack := parentStack }
  let sp ← dom.loadSp
  let dom ← dom.setParent oldStack none
  let m ← initFields { m with dom := dom } cont contTag [valPtr (some oldStack)]
  enterEffectHandler m m.accu cont oldStack (← dom.stack oldStack).handleEffect sp

/-- The replaced stack is gone: writing to it is undefined. -/
theorem finishPerform_freed {oldStack p : Nat} (cont : Value)
    (h : m.dom.pool.get oldStack = none) :
    finishPerform oldStack p cont m = .error .undefined := by
  unfold finishPerform Domain.setWords Domain.stack
  rw [h]
  rfl

/-- A fiber about to perform, on top of the main one. -/
def performing : Machine Unit where
  pc := 0x1004#64
  sp := []
  accu := valUnit
  env := .atom 0
  extraArgs := 0#63
  mem :=
    { heap := ⟨[some ⟨closureTag, [ofCode 0x1008#64, .word (makeClosinfo 0 2)]⟩]⟩
      code := fun _ => Opcode.STOP.code
      globalData := valUnit
      raiseUnhandled := valUnit }
  dom := domainOf [{ mainStack with words := [valLong 1#63, valLong 0#63] },
    { mainStack with handleEffect := .ptr 0 0, parent := some 0 }] 1

end CamlPerform
