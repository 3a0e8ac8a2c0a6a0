import CamlInterp.BytegenFuelProofs

/-! # From terms to resolved code

    The code generator and the emitter together, as `emit_bytecode` and the
    toplevel call them: the generator comes to an end for every term, and of the
    code that it returns the emitter resolves every label. -/

namespace CamlBytegen

open CamlEmit CamlLambda CamlMatching CamlAssembly

/-- The emitter met two events that cannot be merged; there are events in the code of a
    compilation with `-g`, or of a term that has some. -/
def Unmerged (debug : Bool) (expr : Lambda) (r : Except String Emitter) : Prop :=
  (debug = true ∨ 0 < debugEvents expr) ∧ ∃ msg, r = .error msg ∧ MergeError msg

section

variable {debug : Bool} {counters : Counters} {expr : Lambda}

/-- Code has events for one of two reasons. -/
theorem event_reason {k : Nat} (h : 0 < k)
    (hquiet : debug = false → debugEvents expr = 0 → k = 0) :
    debug = true ∨ 0 < debugEvents expr := by
  cases debug with
  | true => exact .inl rfl
  | false =>
      refine .inr (Nat.pos_of_ne_zero fun he => ?_)
      rw [hquiet rfl he] at h
      exact absurd h (Nat.lt_irrefl 0)

theorem compileImplementation_emits {code : Code}
    (h : compileImplementation debug counters expr = .ok code) :
    (∃ e, emit code CamlEmit.init = .ok e ∧ Resolves code e) ∨
      Unmerged debug expr (emit code CamlEmit.init) := by
  rcases (compileImplementation_linked h).emitted with he | ⟨msg, he, hm, hpos⟩
  · exact .inl he
  · have hreason := event_reason hpos fun hd hq => compileImplementation_quiet hd hq h
    exact .inr ⟨hreason, msg, he, hm⟩

end

end CamlBytegen
