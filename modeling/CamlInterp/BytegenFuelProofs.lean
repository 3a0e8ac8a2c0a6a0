import CamlInterp.TripleProofs
import CamlInterp.BytegenLabelProofs

/-! # Termination of the code generator

    `comp_expr` descends into its term, but not only: the functions it meets are
    compiled later, free variables are compiled as terms of their own, and string
    switches are expanded.  `nodes` is enough depth for all of it.  What a term
    costs is how many functions it leaves to `comp_remainder`, and how many events
    it may put into the code; a `Budget` that pays for the continuation and the
    term pays for what the generator returns. -/

namespace CamlBytegen

open CamlEmit CamlLambda CamlMatching CamlAssembly Triples

/-! ## What a term costs -/

/-- One for a function; `b` for an event that a compilation without `-g` does not make. -/
def costWeight (b : Nat) : Lambda → Nat
  | .Lfunction _ _ => 1
  | e => b * eventWeight e

/-- The cost of a term. -/
def cost (b : Nat) (e : Lambda) : Nat := total (costWeight b) e

/-- The cost of the functions still to be compiled. -/
def due (b : Nat) (functions : List FunctionToCompile) : Nat :=
  (functions.map fun tc => cost b tc.body + 1).sum

/-- `m` pays for the functions still to be compiled and the events of the code, and
    no function is larger than `N`.  With `-g` every block and every closure has an
    event, which is not counted. -/
structure Budget (N b m : Nat) (c : Code) (s : GenState) : Prop where
  quiet : b = 0 ∨ s.debug = false
  bodies : ∀ tc ∈ s.functionsToCompile, nodes tc.body ≤ N
  paid : due b s.functionsToCompile + b * eventsOf c ≤ m

variable {N b n m m' : Nat} {c c' : Code} {s s' : GenState}

/-- Code with no more events, and a larger budget. -/
theorem Budget.mono (h : Budget N b m c s) (hc : eventsOf c' ≤ eventsOf c) (hm : m ≤ m') :
    Budget N b m' c' s := by
  refine ⟨h.quiet, h.bodies, ?_⟩
  have hb := Nat.mul_le_mul_left b hc
  have hp := h.paid
  omega

/-- Code with as many events. -/
theorem Budget.plain (h : Budget N b m c s) (hc : eventsOf c' = eventsOf c) :
    Budget N b m c' s := h.mono hc.le (Nat.le_refl m)

/-- One event more. -/
theorem Budget.event (h : Budget N b m c s) (hc : eventsOf c' ≤ eventsOf c + 1) :
    Budget N b (m + b) c' s := by
  refine ⟨h.quiet, h.bodies, ?_⟩
  have hb : b * eventsOf c' ≤ b * eventsOf c + b := by
    rw [← Nat.mul_succ]
    exact Nat.mul_le_mul_left b hc
  have hp := h.paid
  omega

/-- Neither `-g` nor the list of functions has changed. -/
theorem Budget.state (h : Budget N b m c s) (hd : s'.debug = s.debug)
    (hf : s'.functionsToCompile = s.functionsToCompile) : Budget N b m c s' := by
  refine ⟨?_, ?_, ?_⟩
  · rw [hd]
    exact h.quiet
  · rw [hf]
    exact h.bodies
  · rw [hf]
    exact h.paid

/-- A function is put on the list. -/
theorem Budget.push (h : Budget N b m c s) {tc : FunctionToCompile} (hn : nodes tc.body ≤ N) :
    Budget N b (m + cost b tc.body + 1) c
      { s with functionsToCompile := tc :: s.functionsToCompile } := by
  refine ⟨h.quiet, ?_, ?_⟩
  · intro t ht
    rcases List.mem_cons.mp ht with rfl | ht
    · exact hn
    · exact h.bodies t ht
  · have hp := h.paid
    have hdue : due b (tc :: s.functionsToCompile) =
        cost b tc.body + 1 + due b s.functionsToCompile := rfl
    rw [hdue]
    omega

/-- A function is taken from the list. -/
theorem Budget.pop (h : Budget N b m c s) {tc : FunctionToCompile}
    {rem : List FunctionToCompile} (hf : s.functionsToCompile = tc :: rem) :
    nodes tc.body ≤ N ∧ cost b tc.body + 1 ≤ m ∧
      Budget N b (m - (cost b tc.body + 1)) c { s with functionsToCompile := rem } := by
  have hp := h.paid
  have hdue : due b (tc :: rem) = cost b tc.body + 1 + due b rem := rfl
  rw [hf, hdue] at hp
  refine ⟨h.bodies tc (hf ▸ List.mem_cons_self ..), by omega, h.quiet, ?_, ?_⟩
  · intro t ht
    exact h.bodies t (hf ▸ List.mem_cons_of_mem _ ht)
  · show due b rem + b * eventsOf c ≤ _
    omega

/-- A run of the generator that does not run out of fuel. -/
abbrev Fueled {α : Type} (P : GenState → Prop) (x : Gen α) (Q : α → GenState → Prop) : Prop :=
  Runs (fun e => e ≠ GenError.outOfFuel) P x Q

theorem Fueled.fatalError {α : Type} {P : GenState → Prop} {Q : α → GenState → Prop}
    (msg : String) : Fueled P (CamlBytegen.fatalError msg) Q :=
  Runs.throw (by intro h; cases h)

theorem Fueled.assertFailed {α : Type} {P : GenState → Prop} {Q : α → GenState → Prop} :
    Fueled P (throw .assertFailed) Q :=
  Runs.throw (by intro h; cases h)

theorem Fueled.invalidArgument {α : Type} {P : GenState → Prop} {Q : α → GenState → Prop} :
    Fueled P (throw .invalidArgument) Q :=
  Runs.throw (by intro h; cases h)

theorem Fueled.assertGen {P : GenState → Prop} (t : Bool) :
    Fueled P (assertGen t) fun _ => P := by
  cases t with
  | true => exact Runs.pure fun _ hs => hs
  | false => exact Fueled.assertFailed

theorem Fueled.within {P : GenState → Prop} {x : Gen Code} {k k' : Nat}
    (h : Fueled P x (Budget N b (m + k))) (hk : k ≤ k') : Fueled P x (Budget N b (m + k')) :=
  h.post fun _ _ hs => hs.mono (Nat.le_refl _) (Nat.add_le_add_left hk m)

/-- A step on the state that the budget does not see. -/
theorem Fueled.modify {f : GenState → GenState} (hd : ∀ s, (f s).debug = s.debug)
    (hf : ∀ s, (f s).functionsToCompile = s.functionsToCompile) :
    Fueled (Budget N b m c) (modify f) fun _ => Budget N b m c :=
  Runs.modify fun s hs => hs.state (hd s) (hf s)

/-! ## The continuation -/

theorem newLabel_fueled :
    Fueled (Budget N b m c) newLabel fun _ => Budget N b m c := by
  unfold newLabel
  refine Runs.bind (Fueled.modify (fun _ => rfl) fun _ => rfl) fun _ => ?_
  exact Runs.bind (Runs.get _) fun t => Runs.pure fun _ hs => hs.2

theorem labelCode_fueled (hc : eventsOf c' ≤ eventsOf c) :
    Fueled (Budget N b m c) (labelCode c') fun r => Budget N b m r.2 := by
  unfold labelCode
  split
  · exact Runs.pure fun _ hs => hs.mono hc (Nat.le_refl _)
  · exact Runs.pure fun _ hs => hs.mono hc (Nat.le_refl _)
  · refine Runs.bind newLabel_fueled fun l => Runs.pure fun _ hs => ?_
    exact hs.mono hc (Nat.le_refl _)

/-- An instruction that is no event. -/
def Plain (i : Instruction) : Prop := ∀ c, eventsOf (i :: c) = eventsOf c

theorem makeBranch2_fueled {lbl : Option Label} {k : Int} {d : Code} :
    Fueled (Budget N b m c) (makeBranch2 lbl k c d)
      fun r s => Plain r.1 ∧ Budget N b m r.2 s := by
  fun_induction makeBranch2 lbl k c d with
  | case1 => exact Runs.pure fun _ hs => ⟨fun _ => rfl, hs⟩
  | case2 _ _ _ ih => exact ih
  | case3 _ _ _ ih => exact ih
  | case4 => exact Runs.pure fun _ hs => ⟨fun _ => rfl, hs⟩
  | case5 =>
      refine Runs.bind newLabel_fueled fun l => Runs.pure fun _ hs => ?_
      exact ⟨fun _ => rfl, hs.plain rfl⟩

theorem makeBranch_fueled :
    Fueled (Budget N b m c) (makeBranch c) fun r s => Plain r.1 ∧ Budget N b m r.2 s := by
  unfold makeBranch
  split
  · exact Runs.pure fun _ hs => ⟨fun _ => rfl, hs⟩
  · exact Runs.pure fun _ hs => ⟨fun _ => rfl, hs⟩
  · exact Runs.pure fun _ hs => ⟨fun _ => rfl, hs⟩
  · exact makeBranch2_fueled
  · exact makeBranch2_fueled

theorem discardDeadCode_events (c : Code) : eventsOf (discardDeadCode c) ≤ eventsOf c := by
  induction c with
  | nil => exact Nat.le_refl _
  | cons i c ih =>
      cases i with
      | Klabel _ | Krestart | Ksetglobal _ => exact Nat.le_refl _
      | Kevent _ => exact Nat.le_succ_of_le ih
      | _ => exact ih

theorem addPop_events (k : Int) (c : Code) : eventsOf (addPop k c) = eventsOf c := by
  fun_induction addPop k c with
  | case2 _ _ _ _ ih => exact ih
  | _ => rfl

theorem addConstUnit_events (c : Code) : eventsOf (addConstUnit c) = eventsOf c := by
  unfold addConstUnit
  split <;> rfl

theorem notCont_events (c : Code) : eventsOf (notCont c) = eventsOf c := by
  unfold notCont
  split <;> rfl

theorem branchTo_events (l : Label) (c : Code) : eventsOf (branchTo l c) = eventsOf c := by
  unfold branchTo
  split
  · split <;> rfl
  · rfl

theorem pushDummies_events (k : Nat) (c : Code) : eventsOf (pushDummies k c) = eventsOf c := by
  induction k with
  | zero => rfl
  | succ k ih => exact ih

theorem floatcompCont_events (cmp : FloatComparison) (c : Code) :
    eventsOf (floatcompCont cmp c) = eventsOf c := by
  cases cmp <;> rfl

theorem initCode_events (kind : RhsKind) (c : Code) :
    eventsOf (initCode kind ++ c) = eventsOf c := by
  cases kind <;> rfl

/-! ## Events -/

theorem newEventRef_fueled :
    Fueled (Budget N b m c) newEventRef fun _ => Budget N b m c := by
  unfold newEventRef
  refine Runs.bind (Fueled.modify (fun _ => rfl) fun _ => rfl) fun _ => ?_
  exact Runs.bind (Runs.get _) fun t => Runs.pure fun _ hs => hs.2

theorem weakenEvent_fueled {ev : DebugEvent} :
    Fueled (Budget N b m c) (weakenEvent ev c) (Budget N b (m + b)) := by
  fun_cases weakenEvent ev c with
  | case1 =>
      exact Runs.bind newEventRef_fueled fun r => Runs.pure fun _ hs => hs.event (Nat.le_refl _)
  | case2 => exact Runs.pure fun _ hs => hs.mono (Nat.le_refl _) (Nat.le_add_right _ _)
  | case3 => exact Runs.pure fun _ hs => hs.event (Nat.le_refl _)

/-- An event is added, or takes the place of one that it is merged with. -/
theorem addEvent_fueled {ev : DebugEvent} :
    Fueled (Budget N b m c) (addEvent ev c) (Budget N b (m + b)) := by
  fun_cases addEvent ev c with
  | case1 ev' cont =>
      exact weakenEvent_fueled.pre fun _ hs => hs.mono (Nat.le_succ _) (Nat.le_refl _)
  | case2 => exact Fueled.fatalError _
  | case3 => exact weakenEvent_fueled

/-- With `-g` events are free, and without `-g` none is added. -/
theorem addPseudoEvent_fueled :
    Fueled (Budget N b m c) (addPseudoEvent c) (Budget N b m) := by
  unfold addPseudoEvent
  refine Runs.bind (Runs.get _) fun t => ?_
  split
  · next ht =>
      intro s hs
      obtain ⟨rfl, hs⟩ := hs
      have hb : b = 0 := hs.quiet.resolve_right (by rw [ht]; exact Bool.noConfusion)
      subst hb
      exact addEvent_fueled t hs
  · exact Runs.pure fun _ hs => hs.2

/-! ## One call of the generator -/

/-- `rec` compiles terms of at most `n` nodes, and a budget that pays for the
    continuation and the term pays for the code. -/
def Pays (N b n : Nat) (rec : CompExpr) : Prop :=
  ∀ env e sz c m, nodes e ≤ n →
    Fueled (Budget N b m c) (rec env e sz c) (Budget N b (m + cost b e))

theorem totalList_perm {w : Lambda → Nat} {xs ys : List Lambda} (h : xs.Perm ys) :
    totalList w xs = totalList w ys := by
  induction h with
  | nil => rfl
  | cons x _ ih =>
      simp only [totalList]
      rw [ih]
  | swap x y xs =>
      simp only [totalList]
      omega
  | trans _ _ ih1 ih2 => exact ih1.trans ih2

theorem nodes_of_mem {e : Lambda} {es : List Lambda} (h : e ∈ es) :
    nodes e ≤ totalList nodeWeight es := by
  induction es with
  | nil => exact absurd h List.not_mem_nil
  | cons x es ih =>
      rw [totalList]
      rcases List.mem_cons.mp h with rfl | h
      · exact Nat.le_add_right _ _
      · exact Nat.le_trans (ih h) (Nat.le_add_left _ _)

theorem nodes_pos (e : Lambda) : 0 < nodes e := by
  have hw : ∀ e, 0 < nodeWeight e := by
    intro e
    unfold nodeWeight
    split <;> omega
  have h := hw e
  unfold nodes
  cases e <;> (rw [total]; omega)

/-- Variables cost nothing. -/
theorem totalList_vars (fv : List Ident) : totalList (costWeight b) (fv.map .Lvar) = 0 := by
  induction fv with
  | nil => rfl
  | cons x fv ih =>
      rw [List.map_cons, totalList, ih]
      rfl

section

variable {rec : CompExpr} {env : CompilationEnv} {sz : Int}
variable (hrec : Pays N b n rec)
include hrec

/-- Call `rec` on a continuation made from one that is paid for. -/
theorem Pays.call {e : Lambda} (hn : nodes e ≤ n) (hc : eventsOf c' ≤ eventsOf c)
    (hm : m + cost b e ≤ m') :
    Fueled (Budget N b m c) (rec env e sz c') (Budget N b m') :=
  (hrec _ _ _ _ _ hn).conseq (fun _ hs => hs.mono hc (Nat.le_refl _))
    fun _ _ hs => hs.mono (Nat.le_refl _) hm

theorem compExprList_fueled {es : List Lambda} (hn : ∀ e ∈ es, nodes e ≤ n) :
    Fueled (Budget N b m c) (compExprList rec env es sz c)
      (Budget N b (m + totalList (costWeight b) es)) := by
  fun_induction compExprList rec env es sz c with
  | case1 => exact Runs.pure fun _ hs => hs
  | case2 => exact hrec _ _ _ _ _ (hn _ (List.mem_cons_self ..))
  | case3 e rem sz c hne ih =>
      refine Runs.bind (ih fun e he => hn e (List.mem_cons_of_mem _ he)) fun c1 => ?_
      refine hrec.call (hn _ (List.mem_cons_self ..)) (Nat.le_refl _) ?_
      rw [totalList, cost]
      omega

/-- The arguments of an application, the last one first. -/
theorem compArgs_fueled {es : List Lambda} (hn : ∀ e ∈ es, nodes e ≤ n)
    (hc : eventsOf c' ≤ eventsOf c) :
    Fueled (Budget N b m c) (compArgs rec env es sz c')
      (Budget N b (m + totalList (costWeight b) es)) := by
  have h : Fueled (Budget N b m c') (compArgs rec env es sz c') _ :=
    compExprList_fueled hrec fun e he => hn e (List.mem_reverse.mp he)
  rw [totalList_perm es.reverse_perm] at h
  exact h.pre fun _ hs => hs.mono hc (Nat.le_refl _)

/-- The free variables of a closure. -/
theorem compVars_fueled {fv : List Ident} (hpos : 0 < n) (hc : eventsOf c' ≤ eventsOf c) :
    Fueled (Budget N b m c) (compArgs rec env (fv.map .Lvar) sz c') (Budget N b m) := by
  have hvars : ∀ e ∈ fv.map Lambda.Lvar, nodes e ≤ n := by
    intro e he
    obtain ⟨x, -, rfl⟩ := List.mem_map.mp he
    exact hpos
  have h : Fueled (Budget N b m c) (compArgs rec env (fv.map .Lvar) sz c')
      (Budget N b (m + totalList (costWeight b) (fv.map .Lvar))) := compArgs_fueled hrec hvars hc
  rw [totalList_vars] at h
  exact h

theorem compExprListAssign_fueled {es : List Lambda} {pos : Int} (hn : ∀ e ∈ es, nodes e ≤ n) :
    Fueled (Budget N b m c) (compExprListAssign rec env es sz pos c)
      (Budget N b (m + totalList (costWeight b) es)) := by
  induction es generalizing pos with
  | nil => exact Runs.pure fun _ hs => hs
  | cons e rem ih =>
      refine Runs.bind (ih fun e he => hn e (List.mem_cons_of_mem _ he)) fun c1 => ?_
      refine hrec.call (hn _ (List.mem_cons_self ..)) (Nat.le_refl _) ?_
      rw [totalList, cost]
      omega

theorem compExitArgs_fueled {es : List Lambda} {pos : Int} (hn : ∀ e ∈ es, nodes e ≤ n) :
    Fueled (Budget N b m c) (compExitArgs rec env es sz pos c)
      (Budget N b (m + totalList (costWeight b) es)) := by
  have h : Fueled (Budget N b m c) (compExitArgs rec env es sz pos c) _ :=
    compExprListAssign_fueled hrec fun e he => hn e (List.mem_reverse.mp he)
  rw [totalList_perm es.reverse_perm] at h
  exact h

/-! ### Tests and calls -/

omit hrec in
theorem findRaiseLabel_fueled {i : Int} :
    Fueled (Budget N b m c) (findRaiseLabel i) fun _ => Budget N b m c := by
  unfold findRaiseLabel
  refine Runs.bind (Runs.get _) fun t => ?_
  split
  · exact Runs.pure fun _ hs => hs.2
  · exact Fueled.fatalError _

omit hrec in
theorem codeAsJump_fueled {l : Lambda} :
    Fueled (Budget N b m c) (codeAsJump l sz) fun _ => Budget N b m c := by
  unfold codeAsJump
  split
  · refine Runs.bind findRaiseLabel_fueled fun r => Runs.bind (Runs.get _) fun t => ?_
    split
    · exact Runs.pure fun _ hs => hs.2
    · exact Runs.pure fun _ hs => hs.2
  · exact Runs.pure fun _ hs => hs

/-- Both branches are compiled, the second one first, whatever jumps are saved. -/
theorem testCont_fueled {ifso ifnot : Lambda} (h1 : nodes ifso ≤ n) (h2 : nodes ifnot ≤ n) :
    Fueled (Budget N b m c) (testCont rec env ifso ifnot sz c)
      (Budget N b (m + cost b ifnot + cost b ifso)) := by
  unfold testCont
  split
  · refine Runs.bind (labelCode_fueled (Nat.le_refl _)) fun r => ?_
    refine Runs.bind (hrec _ _ _ _ _ h1) fun c1 => Runs.pure fun _ hs => ?_
    exact hs.mono (Nat.le_refl _) (by omega)
  · refine Runs.bind codeAsJump_fueled fun j => ?_
    split
    · refine Runs.bind (hrec _ _ _ _ _ h2) fun c1 => Runs.pure fun _ hs => ?_
      exact hs.mono (Nat.le_refl _) (by omega)
    · refine Runs.bind codeAsJump_fueled fun j => ?_
      split
      · refine Runs.bind (hrec _ _ _ _ _ h1) fun c1 => Runs.pure fun _ hs => ?_
        exact hs.mono (Nat.le_refl _) (by omega)
      · refine Runs.bind makeBranch_fueled fun r => Runs.fact fun hplain => ?_
        refine Runs.bind (hrec _ _ _ _ _ h2) fun c1 => ?_
        refine Runs.bind (labelCode_fueled (Nat.le_refl _)) fun r2 => ?_
        refine Runs.bind (hrec.call h1 (hplain _).le (Nat.le_refl _)) fun c2 => ?_
        exact Runs.pure fun _ hs => hs.plain rfl

/-- An application costs what the function and the arguments cost. -/
theorem compApply_fueled {func : Lambda} {args : List Lambda} (hf : nodes func ≤ n)
    (ha : ∀ e ∈ args, nodes e ≤ n) :
    Fueled (Budget N b m c) (compApply rec env func args sz c)
      (Budget N b (m + (cost b func + totalList (costWeight b) args))) := by
  rw [← Nat.add_assoc]
  unfold compApply
  dsimp only
  split
  · refine Runs.bind (hrec.call hf (discardDeadCode_events c) (Nat.le_refl _)) fun c1 => ?_
    exact compArgs_fueled hrec ha (Nat.le_refl _)
  · split
    · refine Runs.bind (hrec.call hf (Nat.le_refl _) (Nat.le_refl _)) fun c1 => ?_
      exact compArgs_fueled hrec ha (Nat.le_refl _)
    · refine Runs.bind (labelCode_fueled (Nat.le_refl _)) fun r => ?_
      refine Runs.bind (hrec.call hf (Nat.le_refl _) (Nat.le_refl _)) fun c1 => ?_
      refine Runs.bind (compArgs_fueled hrec ha (Nat.le_refl _)) fun c2 => ?_
      exact Runs.pure fun _ hs => hs.plain rfl

omit hrec in
/-- The instruction that looks a method up is no event, and its arguments are those of the send. -/
theorem getMethod_args (kind : MethKind) (met obj : Lambda) (args : List Lambda) :
    Plain (getMethod kind met obj args).1 ∧
      (∀ e ∈ (getMethod kind met obj args).2, e = met ∨ e = obj ∨ e ∈ args) ∧
      totalList (costWeight b) (getMethod kind met obj args).2 ≤
        cost b met + cost b obj + totalList (costWeight b) args := by
  have hall : totalList (costWeight b) (met :: obj :: args) =
      cost b met + cost b obj + totalList (costWeight b) args := by
    simp only [totalList, cost]
    omega
  have hmem : ∀ e ∈ met :: obj :: args, e = met ∨ e = obj ∨ e ∈ args := by
    intro e he
    rcases List.mem_cons.mp he with he | he
    · exact .inl he
    · exact .inr (List.mem_cons.mp he)
  unfold getMethod
  split
  · exact ⟨fun _ => rfl, hmem, hall.le⟩
  · split
    · refine ⟨fun _ => rfl, fun e he => .inr (List.mem_cons.mp he), ?_⟩
      rw [← hall, totalList]
      exact Nat.le_add_left _ _
    · exact ⟨fun _ => rfl, hmem, hall.le⟩

/-- A constant method costs nothing more when it is not compiled. -/
theorem compSend_fueled {kind : MethKind} {met obj : Lambda} {args : List Lambda}
    (h1 : nodes met ≤ n) (h2 : nodes obj ≤ n) (ha : ∀ e ∈ args, nodes e ≤ n) :
    Fueled (Budget N b m c) (compSend rec env kind met obj args sz c)
      (Budget N b (m + (cost b met + cost b obj + totalList (costWeight b) args))) := by
  obtain ⟨hplain, hmem, hcost⟩ := getMethod_args (b := b) kind met obj args
  have hargs : ∀ e ∈ (getMethod kind met obj args).2, nodes e ≤ n := by
    intro e he
    rcases hmem e he with rfl | rfl | he
    · exact h1
    · exact h2
    · exact ha e he
  have hm := Nat.add_le_add_left hcost m
  unfold compSend
  refine Runs.bind (Fueled.assertGen _) fun _ => ?_
  dsimp only
  split
  · refine (compArgs_fueled hrec hargs ?_).post fun _ _ hs => hs.mono (Nat.le_refl _) hm
    rw [hplain]
    exact discardDeadCode_events c
  · split
    · refine (compArgs_fueled hrec hargs ?_).post fun _ _ hs => hs.mono (Nat.le_refl _) hm
      rw [hplain]
      exact Nat.le_refl _
    · refine Runs.bind (labelCode_fueled (Nat.le_refl _)) fun r => ?_
      refine Runs.bind (compArgs_fueled hrec hargs ?_) fun c1 => ?_
      · rw [hplain]
        exact Nat.le_refl _
      · exact Runs.pure fun _ hs => hs.mono (Nat.le_refl _) hm

/-! ### Functions -/

omit hrec in
theorem pushFunction_fueled {tc : FunctionToCompile} (hn : nodes tc.body ≤ N) :
    Fueled (Budget N b m c) (pushFunction tc) fun _ => Budget N b (m + cost b tc.body + 1) c :=
  Runs.modify fun _ hs => hs.push hn

theorem compFunctionExpr_fueled {params : List Ident} {body : Lambda} (hn : nodes body ≤ n)
    (hN : n ≤ N) :
    Fueled (Budget N b m c) (compFunctionExpr rec env params body sz c)
      (Budget N b (m + (cost b body + 1))) := by
  unfold compFunctionExpr
  refine Runs.bind addPseudoEvent_fueled fun c1 => Runs.bind newLabel_fueled fun l => ?_
  refine Runs.bind (pushFunction_fueled (Nat.le_trans hn hN)) fun _ => ?_
  exact compVars_fueled hrec (Nat.lt_of_lt_of_le (nodes_pos body) hn) (Nat.le_refl _)

omit hrec in
/-- The functions of a `let rec` are put on the list. -/
theorem compFun_fueled {fv recIdents : List Ident} {ndecl pos : Nat}
    {decl : List (Ident × Lambda)} (hn : totalDecl nodeWeight decl ≤ N) :
    Fueled (Budget N b m c) (compFun fv recIdents ndecl pos decl)
      fun _ => Budget N b (m + totalDecl (costWeight b) decl) c := by
  fun_induction compFun fv recIdents ndecl pos decl generalizing m with
  | case1 => exact Runs.pure fun _ hs => hs
  | case2 pos id params body rem ih =>
      rw [totalDecl, total] at hn
      have hbody : nodes body ≤ N := by
        unfold nodes
        omega
      refine Runs.bind newLabel_fueled fun l => ?_
      refine Runs.bind (pushFunction_fueled hbody) fun _ => ?_
      refine Runs.bind (ih (by omega)) fun lbls => Runs.pure fun _ hs => ?_
      refine hs.mono (Nat.le_refl _) ?_
      simp only [totalDecl, total, cost, costWeight]
      omega
  | case3 => exact Fueled.assertFailed

theorem compLetrecFunctions_fueled {decl : List (Ident × Lambda)} {body : Lambda}
    (hd : totalDecl nodeWeight decl ≤ N) (hn : nodes body ≤ n) :
    Fueled (Budget N b m c) (compLetrecFunctions rec env decl body sz c)
      (Budget N b (m + (totalDecl (costWeight b) decl + cost b body))) := by
  unfold compLetrecFunctions
  refine Runs.bind (compFun_fueled hd) fun lbls => ?_
  rw [← Nat.add_assoc]
  refine Runs.bind (hrec.call hn (addPop_events _ _).le (Nat.le_refl _)) fun c1 => ?_
  exact compVars_fueled hrec (Nat.lt_of_lt_of_le (nodes_pos body) hn) (Nat.le_refl _)

/-! ### Recursive values -/

omit hrec in
theorem duprecordSize_fueled {kind : RecordRepresentation} {k : Int} :
    duprecordSize kind k ≠ .error .outOfFuel := by
  unfold duprecordSize
  split <;> exact fun h => by cases h

omit hrec in
theorem except_bind_fueled {α β : Type} {x : Except GenError α} {f : α → Except GenError β}
    (hx : x ≠ .error .outOfFuel) (hf : ∀ a, f a ≠ .error .outOfFuel) :
    (x >>= f) ≠ .error .outOfFuel := by
  cases x with
  | ok a => exact hf a
  | error e =>
      intro h
      cases h
      exact hx rfl

omit hrec in
/-- `size_of_lambda` recurses on the term only. -/
theorem sizeOfLambda_fueled (sizes : Ident → Option RhsKind) (e : Lambda) :
    sizeOfLambda sizes e ≠ .error .outOfFuel := by
  have hok : ∀ {α : Type} (a : α), (Except.ok a : Except GenError α) ≠ .error .outOfFuel :=
    fun a h => by cases h
  refine sizeOfLambda.induct (fun sizes e => sizeOfLambda sizes e ≠ .error .outOfFuel)
    (fun sizes decl => sizeOfDecl sizes decl ≠ .error .outOfFuel)
    ?var ?function ?copy ?bind ?functions ?letrec ?block ?addrarray ?intarray ?floatarray ?genarray
    ?duprecord ?event ?sequence ?other ?nil ?cons sizes e
  case copy =>
    intro sizes str kind id arg body k size hcopy
    rw [sizeOfLambda, hcopy]
    exact duprecordSize_fueled
  case bind =>
    intro sizes str kind id arg body hcopy iharg ihbody
    rw [sizeOfLambda, hcopy]
    exact except_bind_fueled iharg ihbody
  case functions =>
    intro sizes bindings body hall blocksize ih
    rw [sizeOfLambda, if_pos hall]
    exact ih
  case letrec =>
    intro sizes bindings body hall ihdecl ihbody
    rw [sizeOfLambda, if_neg hall]
    exact except_bind_fueled ihdecl ihbody
  case duprecord =>
    intro sizes kind size args loc
    rw [sizeOfLambda]
    exact duprecordSize_fueled
  case event =>
    intro sizes lam kind repr ih
    rw [sizeOfLambda]
    exact ih
  case sequence =>
    intro sizes e1 e2 ih
    rw [sizeOfLambda]
    exact ih
  case cons =>
    intro sizes id e rem ihrem ih
    rw [sizeOfDecl]
    exact except_bind_fueled ihrem fun env => except_bind_fueled (ih env) fun a => hok _
  case other =>
    intro e sizes
    intros
    rw [sizeOfLambda]
    · exact hok _
    all_goals assumption
  all_goals
    intros
    exact hok _

omit hrec in
/-- The right-hand sides keep their order. -/
theorem declSizes_fueled {decl : List (Ident × Lambda)} :
    Fueled (Budget N b m c) (declSizes decl) fun sizes s =>
      sizes.map (fun d => d.2.1) = decl.map Prod.snd ∧ Budget N b m c s := by
  induction decl with
  | nil => exact Runs.pure fun _ hs => ⟨rfl, hs⟩
  | cons d rem ih =>
      obtain ⟨id, e⟩ := d
      have hsize : Fueled (Budget N b m c) (monadLift (sizeOfLambda (fun _ => none) e))
          fun _ => Budget N b m c := by
        refine Runs.lift (fun _ _ _ hs => hs) ?_
        intro err herr hfuel
        subst hfuel
        exact sizeOfLambda_fueled _ e herr
      refine Runs.bind hsize fun kind => Runs.bind ih fun sizes => Runs.pure fun _ hs => ?_
      refine ⟨?_, hs.2⟩
      rw [List.map_cons, List.map_cons, hs.1]

/-- What `comp_nonrec` compiles. -/
def isNonrec : RhsKind → Bool
  | .RHS_nonrec => true
  | _ => false

/-- What the definitions cost that are compiled by `comp_nonrec`, or by `comp_rec`. -/
def kindCost (b : Nat) (simple : Bool) : List (Ident × Lambda × RhsKind) → Nat
  | [] => 0
  | (_, e, kind) :: rem =>
      (if isNonrec kind = simple then cost b e else 0) + kindCost b simple rem

omit hrec in
/-- Each definition is compiled once. -/
theorem kindCost_total (sizes : List (Ident × Lambda × RhsKind)) :
    kindCost b true sizes + kindCost b false sizes =
      totalList (costWeight b) (sizes.map fun d => d.2.1) := by
  induction sizes with
  | nil => rfl
  | cons d rem ih =>
      obtain ⟨id, e, kind⟩ := d
      have hsum : totalList (costWeight b) (List.map (fun d => d.2.1) ((id, e, kind) :: rem)) =
          cost b e + (kindCost b true rem + kindCost b false rem) := by
        rw [ih]
        rfl
      rw [hsum, kindCost, kindCost]
      cases isNonrec kind with
      | true =>
          rw [if_pos rfl, if_neg Bool.noConfusion]
          omega
      | false =>
          rw [if_neg Bool.noConfusion, if_pos rfl]
          omega

/-- The definitions that have a dummy block are compiled behind the others. -/
theorem compRec_fueled {P : GenState → Prop} {body : Gen Code} {i : Int}
    {sizes : List (Ident × Lambda × RhsKind)} (hn : ∀ d ∈ sizes, nodes d.2.1 ≤ n)
    (hbody : Fueled P body (Budget N b m)) :
    Fueled P (compRec rec body env sz i sizes) (Budget N b (m + kindCost b false sizes)) := by
  induction sizes generalizing i with
  | nil => exact hbody
  | cons d rem ih =>
      obtain ⟨id, e, kind⟩ := d
      have hrem := fun {i} => ih (i := i) fun d hd => hn d (List.mem_cons_of_mem _ hd)
      cases kind with
      | RHS_nonrec =>
          exact hrem.post fun _ _ hs => hs.mono (Nat.le_refl _) (by simp [kindCost, isNonrec])
      | _ =>
          refine Runs.bind hrem fun c1 => ?_
          refine hrec.call (hn _ (List.mem_cons_self ..)) (Nat.le_refl _) ?_
          show _ ≤ m + (cost b e + kindCost b false rem)
          omega

/-- The definitions that have none are compiled first. -/
theorem compNonrec_fueled {P : GenState → Prop} {k : Gen Code} {i : Int}
    {sizes : List (Ident × Lambda × RhsKind)} (hn : ∀ d ∈ sizes, nodes d.2.1 ≤ n)
    (hk : Fueled P k (Budget N b m)) :
    Fueled P (compNonrec rec k env sz i sizes) (Budget N b (m + kindCost b true sizes)) := by
  induction sizes generalizing i with
  | nil => exact hk
  | cons d rem ih =>
      obtain ⟨id, e, kind⟩ := d
      have hrem := fun {i} => ih (i := i) fun d hd => hn d (List.mem_cons_of_mem _ hd)
      cases kind with
      | RHS_nonrec =>
          refine Runs.bind hrem fun c1 => ?_
          refine hrec.call (hn _ (List.mem_cons_self ..)) (Nat.le_refl _) ?_
          show _ ≤ m + (cost b e + kindCost b true rem)
          omega
      | _ => exact hrem.post fun _ _ hs => hs.mono (Nat.le_refl _) (by simp [kindCost, isNonrec])

omit hrec in
/-- To push dummies takes no `comp_expr`. -/
theorem compInit_fueled {P : GenState → Prop} {k : CompilationEnv → Int → Gen Code}
    {sizes : List (Ident × Lambda × RhsKind)}
    (hk : ∀ newEnv sz, Fueled P (k newEnv sz) (Budget N b m)) :
    Fueled P (compInit k env sz sizes) (Budget N b m) := by
  induction sizes generalizing env sz with
  | nil => exact hk env sz
  | cons d rem ih =>
      obtain ⟨id, e, kind⟩ := d
      refine Runs.bind ih fun c1 => Runs.pure fun _ hs => ?_
      exact hs.plain (initCode_events kind c1)

omit hrec in
theorem totalDecl_map (w : Lambda → Nat) (decl : List (Ident × Lambda)) :
    totalDecl w decl = totalList w (decl.map Prod.snd) := by
  induction decl with
  | nil => rfl
  | cons d rem ih =>
      rw [totalDecl, List.map_cons, totalList, ih]

/-- A `let rec` of other values than functions costs its definitions and its body. -/
theorem compLetrecGeneral_fueled {decl : List (Ident × Lambda)} {body : Lambda}
    (hd : totalDecl nodeWeight decl ≤ n) (hn : nodes body ≤ n) :
    Fueled (Budget N b m c) (compLetrecGeneral rec env decl body sz c)
      (Budget N b (m + (totalDecl (costWeight b) decl + cost b body))) := by
  unfold compLetrecGeneral
  refine Runs.bind declSizes_fueled fun sizes => Runs.fact fun hmap => ?_
  have hsizes : ∀ d ∈ sizes, nodes d.2.1 ≤ n := by
    intro d hds
    have hm : d.2.1 ∈ decl.map Prod.snd := hmap ▸ List.mem_map_of_mem hds
    rw [totalDecl_map] at hd
    exact Nat.le_trans (nodes_of_mem hm) hd
  have hcost := kindCost_total (b := b) sizes
  rw [hmap, ← totalDecl_map] at hcost
  refine compInit_fueled fun newEnv sz => ?_
  have hbody : Fueled (Budget N b m c) (rec newEnv body sz (addPop decl.length c))
      (Budget N b (m + cost b body)) := hrec.call hn (addPop_events _ _).le (Nat.le_refl _)
  refine (compNonrec_fueled hrec hsizes (compRec_fueled hrec hsizes hbody)).post fun _ _ hs => ?_
  exact hs.mono (Nat.le_refl _) (by omega)

/-! ### Primitives -/

omit hrec in
theorem checkStack_fueled {k : Int} :
    Fueled (Budget N b m c) (checkStack k) fun _ => Budget N b m c :=
  Fueled.modify (fun _ => rfl) fun _ => rfl

omit hrec in
/-- An instruction of a primitive is no event. -/
theorem primitiveInstr_plain {p : Primitive} {args : List Lambda} {i : Instruction}
    (h : primitiveInstr p args = some i) : Plain i := by
  unfold primitiveInstr at h
  split at h <;> cases h <;> exact fun _ => rfl

omit hrec in
/-- The instruction of a primitive, if it has one. -/
theorem compPrimitive_fueled {p : Primitive} {k : Int} {args : List Lambda} :
    Fueled (Budget N b m c) (compPrimitive p k args) fun i s => Plain i ∧ Budget N b m c s := by
  unfold compPrimitive
  refine Runs.bind checkStack_fueled fun _ => ?_
  split
  · next i hi =>
      have hdone : Fueled (Budget N b m c) (pure i) fun i s => Plain i ∧ Budget N b m c s :=
        Runs.pure fun _ hs => ⟨primitiveInstr_plain hi, hs⟩
      split
      · exact Runs.bind checkStack_fueled fun _ => hdone
      · exact hdone
  · exact Fueled.fatalError _

theorem compPlainPrim_fueled {p : Primitive} {args : List Lambda}
    (hn : ∀ e ∈ args, nodes e ≤ n) :
    Fueled (Budget N b m c) (compPlainPrim rec env p args sz c)
      (Budget N b (m + totalList (costWeight b) args)) := by
  unfold compPlainPrim
  refine Runs.bind compPrimitive_fueled fun i => Runs.fact fun hplain => ?_
  exact compArgs_fueled hrec hn (hplain c).le

/-- An array costs its elements; the event of its allocation is free. -/
theorem compMakearray_fueled {kind : ArrayKind} {args : List Lambda}
    (hn : ∀ e ∈ args, nodes e ≤ n) :
    Fueled (Budget N b m c) (compMakearray rec env kind args sz c)
      (Budget N b (m + totalList (costWeight b) args)) := by
  unfold compMakearray
  refine Runs.bind addPseudoEvent_fueled fun c1 => ?_
  split
  · exact compArgs_fueled hrec hn (Nat.le_refl _)
  · exact compArgs_fueled hrec hn (Nat.le_refl _)
  · exact compArgs_fueled hrec hn (Nat.le_refl _)
  · split
    · exact Runs.pure fun _ hs => hs.mono (Nat.le_refl _) (Nat.le_add_right _ _)
    · exact compArgs_fueled hrec hn (Nat.le_refl _)

/-- Two operands of a shortcut, the second compiled first. -/
theorem operands_fueled {exp1 exp2 : Lambda} {i : Instruction} (hi : Plain i)
    (h1 : nodes exp1 ≤ n) (h2 : nodes exp2 ≤ n) (hc : eventsOf c' ≤ eventsOf c) :
    Fueled (Budget N b m c) (do rec env exp1 sz (i :: (← rec env exp2 sz c')))
      (Budget N b (m + (cost b exp1 + cost b exp2))) := by
  refine Runs.bind (hrec.call h2 hc (Nat.le_refl _)) fun c1 => ?_
  exact hrec.call h1 (hi c1).le (by omega)

theorem compSequand_fueled {exp1 exp2 : Lambda} (h1 : nodes exp1 ≤ n) (h2 : nodes exp2 ≤ n) :
    Fueled (Budget N b m c) (compSequand rec env exp1 exp2 sz c)
      (Budget N b (m + (cost b exp1 + cost b exp2))) := by
  unfold compSequand
  split
  · exact operands_fueled hrec (fun _ => rfl) h1 h2 (Nat.le_refl _)
  · next lbl cont1 =>
      refine Runs.bind (labelCode_fueled (Nat.le_refl _)) fun r => ?_
      exact operands_fueled hrec (fun _ => rfl) h1 h2 (Nat.le_refl _)
  · refine Runs.bind (labelCode_fueled (Nat.le_refl _)) fun r => ?_
    exact operands_fueled hrec (fun _ => rfl) h1 h2 (Nat.le_refl _)

theorem compSequor_fueled {exp1 exp2 : Lambda} (h1 : nodes exp1 ≤ n) (h2 : nodes exp2 ≤ n) :
    Fueled (Budget N b m c) (compSequor rec env exp1 exp2 sz c)
      (Budget N b (m + (cost b exp1 + cost b exp2))) := by
  unfold compSequor
  split
  · exact operands_fueled hrec (fun _ => rfl) h1 h2 (Nat.le_refl _)
  · next lbl cont1 =>
      refine Runs.bind (labelCode_fueled (Nat.le_refl _)) fun r => ?_
      exact operands_fueled hrec (fun _ => rfl) h1 h2 (Nat.le_refl _)
  · refine Runs.bind (labelCode_fueled (Nat.le_refl _)) fun r => ?_
    exact operands_fueled hrec (fun _ => rfl) h1 h2 (Nat.le_refl _)

theorem compResume_fueled {args : List Lambda} (hn : ∀ e ∈ args, nodes e ≤ n) :
    Fueled (Budget N b m c) (compResume rec env args sz c)
      (Budget N b (m + totalList (costWeight b) args)) := by
  unfold compResume
  refine Runs.bind (Fueled.assertGen _) fun _ => Runs.bind checkStack_fueled fun _ => ?_
  split
  · exact compArgs_fueled hrec hn (discardDeadCode_events c)
  · exact compArgs_fueled hrec hn (Nat.le_refl _)

theorem compReperform_fueled {args : List Lambda} (hn : ∀ e ∈ args, nodes e ≤ n) :
    Fueled (Budget N b m c) (compReperform rec env args sz c)
      (Budget N b (m + totalList (costWeight b) args)) := by
  unfold compReperform
  refine Runs.bind (Fueled.assertGen _) fun _ => Runs.bind checkStack_fueled fun _ => ?_
  split
  · exact compArgs_fueled hrec hn (discardDeadCode_events c)
  · exact Fueled.fatalError _

omit hrec in
theorem nodes_args {p : Primitive} {args : List Lambda} {loc : ScopedLocation}
    (h : nodes (.Lprim p args loc) ≤ n + 1) : ∀ e ∈ args, nodes e ≤ n := by
  intro e he
  have hw : 1 ≤ nodeWeight (.Lprim p args loc) := by
    unfold nodeWeight
    split <;> omega
  have hle := nodes_of_mem he
  rw [nodes, total] at h
  omega

/-- One argument, compiled in front of code made from the continuation. -/
theorem single_fueled {arg : Lambda} (hn : ∀ e ∈ [arg], nodes e ≤ n)
    (hc : eventsOf c' ≤ eventsOf c) :
    Fueled (Budget N b m c) (rec env arg sz c')
      (Budget N b (m + totalList (costWeight b) [arg])) :=
  hrec.call (hn arg (List.mem_singleton.mpr rfl)) hc (Nat.le_refl _)

/-- A primitive costs its arguments.  A `Pduparray` is compiled as another primitive,
    which is why it counts twice as a node. -/
theorem compPrim_fueled {p : Primitive} {args : List Lambda} {loc : ScopedLocation}
    (h : nodes (.Lprim p args loc) ≤ n + 1) :
    Fueled (Budget N b m c) (compPrim rec env p args loc sz c)
      (Budget N b (m + totalList (costWeight b) args)) := by
  have hn := nodes_args h
  unfold compPrim
  split
  · exact single_fueled hrec hn (Nat.le_refl _)
  · exact single_fueled hrec hn (addConstUnit_events c).le
  · exact single_fueled hrec hn (notCont_events c).le
  · next exp1 exp2 =>
      exact compSequand_fueled hrec (hn exp1 (List.mem_cons_self ..))
        (hn exp2 (List.mem_cons_of_mem _ (List.mem_cons_self ..)))
  · next exp1 exp2 =>
      exact compSequor_fueled hrec (hn exp1 (List.mem_cons_self ..))
        (hn exp2 (List.mem_cons_of_mem _ (List.mem_cons_self ..)))
  · exact single_fueled hrec hn (discardDeadCode_events c)
  · next arg k =>
      split
      · exact hrec.call (hn arg (List.mem_cons_self ..)) (Nat.le_refl _) (Nat.le_refl _)
      · exact compPlainPrim_fueled hrec hn
  · next arg k =>
      split
      · exact hrec.call (hn arg (List.mem_cons_self ..)) (Nat.le_refl _) (Nat.le_refl _)
      · exact compPlainPrim_fueled hrec hn
  · split
    · exact compPlainPrim_fueled hrec hn
    · exact single_fueled hrec hn (Nat.le_refl _)
  · exact compMakearray_fueled hrec hn
  · exact compResume_fueled hrec hn
  · exact compResume_fueled hrec hn
  · exact compReperform_fueled hrec hn
  · -- the copy of an array literal is the literal
    refine Runs.bind (Fueled.assertGen _) fun _ => ?_
    refine hrec.call ?_ (Nat.le_refl _) (Nat.le_refl _)
    simp only [nodes, total, totalList, nodeWeight] at h ⊢
    omega
  · refine hrec.call ?_ (Nat.le_refl _) (Nat.le_refl _)
    simp only [nodes, total, totalList, nodeWeight] at h ⊢
    omega
  · exact Fueled.fatalError _
  · next cmp arg k =>
      have hswap : [Lambda.Lconst k, arg].Perm [arg, .Lconst k] := List.Perm.swap ..
      rw [← totalList_perm hswap]
      exact compPlainPrim_fueled hrec fun e he => hn e (hswap.mem_iff.mp he)
  · exact compArgs_fueled hrec hn (floatcompCont_events _ c).le
  · exact Runs.bind addPseudoEvent_fueled fun c1 => compArgs_fueled hrec hn (Nat.le_refl _)
  · exact Runs.bind addPseudoEvent_fueled fun c1 => compArgs_fueled hrec hn (Nat.le_refl _)
  · exact compPlainPrim_fueled hrec hn

/-! ### Exceptions and loops -/

omit hrec in
theorem pushStaticRaise_fueled {i k : Int} {l : Label} :
    Fueled (Budget N b m c) (pushStaticRaise i l k) fun _ => Budget N b m c :=
  Fueled.modify (fun _ => rfl) fun _ => rfl

/-- The handler is compiled before the body. -/
theorem catchCode_fueled {body handler : Lambda} {i : Int} {vars : List Ident}
    (h1 : nodes body ≤ n) (h2 : nodes handler ≤ n) :
    Fueled (Budget N b m c) (catchCode rec env body i vars handler sz c)
      (Budget N b (m + (cost b body + cost b handler))) := by
  unfold catchCode
  refine Runs.bind makeBranch_fueled ?_
  rintro ⟨branch1, cont1⟩
  refine Runs.fact fun hplain => ?_
  dsimp only
  split
  · refine Runs.bind (hrec.call h2 (addPop_events _ _).le (Nat.le_refl _)) fun c1 => ?_
    refine Runs.bind (labelCode_fueled (Nat.le_refl _)) fun r2 => ?_
    refine Runs.bind pushStaticRaise_fueled fun _ => ?_
    exact hrec.call h1 (hplain _).le (by omega)
  · refine Runs.bind (hrec.call h2 (addPop_events _ _).le (Nat.le_refl _)) fun c1 => ?_
    refine Runs.bind (labelCode_fueled (Nat.le_refl _)) fun r2 => ?_
    refine Runs.bind pushStaticRaise_fueled fun _ => ?_
    have hpop : eventsOf (addPop vars.length (branch1 :: r2.2)) ≤ eventsOf r2.2 := by
      rw [addPop_events, hplain]
    refine Runs.bind (hrec.call h1 hpop (Nat.le_refl _)) fun c2 => Runs.pure fun _ hs => ?_
    exact hs.mono (pushDummies_events _ _).le (by omega)

theorem compStaticcatch_fueled {body handler : Lambda} {i : Int} {vars : List Ident}
    (h1 : nodes body ≤ n) (h2 : nodes handler ≤ n) :
    Fueled (Budget N b m c) (compStaticcatch rec env body i vars handler sz c)
      (Budget N b (m + (cost b body + cost b handler))) := by
  unfold compStaticcatch
  refine Runs.bind (catchCode_fueled hrec h1 h2) fun c1 => ?_
  exact Runs.bind (Fueled.modify (fun _ => rfl) fun _ => rfl) fun _ => Runs.pure fun _ hs => hs

omit hrec in
/-- To leave `try` blocks puts in no events. -/
theorem leaveTries_fueled {tb tbs : List Int} {size : Int} :
    Fueled (Budget N b m c) (leaveTries tb size c sz tbs) (Budget N b m) := by
  induction tbs generalizing sz with
  | nil =>
      unfold leaveTries
      split
      · exact Runs.pure fun _ hs => hs.plain (addPop_events _ _)
      · exact Fueled.assertFailed
  | cons trySz tbb ih =>
      unfold leaveTries
      split
      · exact Runs.pure fun _ hs => hs.plain (addPop_events _ _)
      · refine Runs.bind ih fun c1 => Runs.pure fun _ hs => ?_
        exact hs.plain (addPop_events _ _)

/-- An exit costs its arguments; the code behind it is dead. -/
theorem compStaticraise_fueled {i : Int} {args : List Lambda} (hn : ∀ e ∈ args, nodes e ≤ n) :
    Fueled (Budget N b m c) (compStaticraise rec env i args sz c)
      (Budget N b (m + totalList (costWeight b) args)) := by
  unfold compStaticraise
  refine Runs.bind findRaiseLabel_fueled fun r => Runs.bind (Runs.get _) fun t => ?_
  have hdead : eventsOf (branchTo r.1 (discardDeadCode c)) ≤ eventsOf c := by
    rw [branchTo_events]
    exact discardDeadCode_events c
  have hleave : Fueled (Budget N b m (branchTo r.1 (discardDeadCode c)))
      (leaveTries r.2.2 r.2.1 (branchTo r.1 (discardDeadCode c)) sz t.tryBlocks) (Budget N b m) :=
    leaveTries_fueled
  refine Runs.bind (hleave.pre fun _ hs => hs.2.mono hdead (Nat.le_refl _)) fun c1 => ?_
  split
  · exact single_fueled hrec hn (Nat.le_refl _)
  · exact compExitArgs_fueled hrec hn

/-- The handler is compiled before the body, and stands behind it. -/
theorem compTrywith_fueled {body handler : Lambda} {id : Ident} (h1 : nodes body ≤ n)
    (h2 : nodes handler ≤ n) :
    Fueled (Budget N b m c) (compTrywith rec env body id handler sz c)
      (Budget N b (m + (cost b body + cost b handler))) := by
  unfold compTrywith
  refine Runs.bind makeBranch_fueled fun r => Runs.fact fun hplain => ?_
  refine Runs.bind newLabel_fueled fun l => ?_
  refine Runs.bind (hrec.call h2 (addPop_events _ _).le (Nat.le_refl _)) fun c1 => ?_
  refine Runs.bind (Fueled.modify (fun _ => rfl) fun _ => rfl) fun _ => ?_
  refine Runs.bind (hrec.call h1 (hplain _).le (Nat.le_refl _)) fun c2 => ?_
  refine Runs.bind (Fueled.modify (fun _ => rfl) fun _ => rfl) fun _ => Runs.pure fun _ hs => ?_
  exact hs.mono (Nat.le_refl _) (by omega)

theorem compWhile_fueled {cond body : Lambda} (h1 : nodes cond ≤ n) (h2 : nodes body ≤ n) :
    Fueled (Budget N b m c) (compWhile rec env cond body sz c)
      (Budget N b (m + (cost b cond + cost b body))) := by
  unfold compWhile
  refine Runs.bind newLabel_fueled fun l1 => Runs.bind newLabel_fueled fun l2 => ?_
  refine Runs.bind (hrec.call h1 (addConstUnit_events c).le (Nat.le_refl _)) fun c1 => ?_
  refine Runs.bind (hrec.call h2 (Nat.le_refl _) (Nat.le_refl _)) fun c2 => Runs.pure fun _ hs => ?_
  exact hs.mono (Nat.le_refl _) (by omega)

theorem compFor_fueled {param : Ident} {start stop body : Lambda} {dir : DirectionFlag}
    (h1 : nodes start ≤ n) (h2 : nodes stop ≤ n) (h3 : nodes body ≤ n) :
    Fueled (Budget N b m c) (compFor rec env param start stop dir body sz c)
      (Budget N b (m + (cost b start + cost b stop + cost b body))) := by
  have hleave : eventsOf (addConstUnit (addPop 2 c)) = eventsOf c := by
    rw [addConstUnit_events, addPop_events]
  unfold compFor
  refine Runs.bind newLabel_fueled fun l1 => Runs.bind newLabel_fueled fun l2 => ?_
  refine Runs.bind (hrec.call h3 hleave.le (Nat.le_refl _)) fun c1 => ?_
  refine Runs.bind (hrec.call h2 (Nat.le_refl _) (Nat.le_refl _)) fun c2 => ?_
  exact hrec.call h1 (Nat.le_refl _) (by omega)

/-! ### Switches -/

/-- The actions of a switch are compiled once each, the last one first. -/
theorem compActions_fueled {branch : Instruction} {acts : List Lambda} (hb : Plain branch)
    (hn : ∀ e ∈ acts, nodes e ≤ n) :
    Fueled (Budget N b m c) (compActions rec env sz branch acts c)
      fun r => Budget N b (m + totalList (costWeight b) acts) r.2 := by
  induction acts with
  | nil => exact Runs.pure fun _ hs => hs
  | cons act acts ih =>
      refine Runs.bind (ih fun e he => hn e (List.mem_cons_of_mem _ he)) fun r => ?_
      refine Runs.bind (hrec.call (hn act (List.mem_cons_self ..)) (hb _).le (Nat.le_refl _))
        fun c1 => ?_
      refine Runs.bind (labelCode_fueled (Nat.le_refl _)) fun r2 => Runs.pure fun _ hs => ?_
      refine hs.mono (discardDeadCode_events _) ?_
      rw [totalList, cost]
      omega

/-- The actions of a store can be compiled, and cost at most `k`. -/
structure Affords (n b k : Nat) (st : ActStore) : Prop where
  nodes : ∀ e ∈ st.acts, CamlLambda.nodes e ≤ n
  cost : totalList (costWeight b) st.acts ≤ k

omit hrec in
theorem totalList_append (w : Lambda → Nat) (xs ys : List Lambda) :
    totalList w (xs ++ ys) = totalList w xs + totalList w ys := by
  induction xs with
  | nil => exact (Nat.zero_add _).symm
  | cons x xs ih =>
      rw [List.cons_append, totalList, totalList, ih]
      omega

omit hrec in
/-- One action more in the store. -/
theorem Affords.append {k : Nat} {st : ActStore} (h : Affords n b k st) {act : Lambda}
    (hn : CamlLambda.nodes act ≤ n) {keys : List (Lambda × Nat)} :
    Affords n b (k + CamlBytegen.cost b act) ⟨keys, st.acts ++ [act]⟩ := by
  constructor
  · intro e he
    rcases List.mem_append.mp he with he | he
    · exact h.nodes e he
    · rw [List.mem_singleton.mp he]
      exact hn
  · have hc := h.cost
    rw [totalList_append, totalList, totalList, CamlBytegen.cost]
    omega

omit hrec in
/-- An action is stored once, or was already. -/
theorem actStore_fueled {k : Nat} {st : ActStore} {act : Lambda} (h : Affords n b k st)
    (hn : nodes act ≤ n) :
    Fueled (Budget N b m c) (actStore st act)
      fun r s => Affords n b (k + cost b act) r.2 ∧ Budget N b m c s := by
  fun_cases actStore st act with
  | case1 =>
      refine Runs.pure fun _ hs => ⟨⟨h.nodes, ?_⟩, hs⟩
      exact Nat.le_trans h.cost (Nat.le_add_right _ _)
  | case2 => exact Runs.pure fun _ hs => ⟨h.append hn, hs⟩
  | case3 => exact Runs.pure fun _ hs => ⟨h.append hn, hs⟩
  | case4 => exact Fueled.fatalError _

omit hrec in
/-- The store with the default action. -/
theorem storeDefault_fueled {failaction : Option Lambda}
    (hn : totalOpt nodeWeight failaction ≤ n) :
    Fueled (Budget N b m c) (storeDefault failaction)
      fun st s => Affords n b (totalOpt (costWeight b) failaction) st ∧ Budget N b m c s := by
  have hempty : Affords n b 0 mkStore := ⟨fun _ he => absurd he List.not_mem_nil, Nat.le_refl _⟩
  unfold storeDefault
  split
  · refine Runs.bind (actStore_fueled hempty hn) fun r => Runs.pure fun _ hs => ⟨?_, hs.2⟩
    rw [Nat.zero_add] at hs
    exact hs.1
  · exact Runs.pure fun _ hs => ⟨hempty, hs⟩

omit hrec in
/-- All actions of the cases are stored. -/
theorem storeCases_fueled {cases' : List (Nat × Lambda)} {idx : List Nat} {k : Nat}
    {st : ActStore} (h : Affords n b k st) (hn : totalCases nodeWeight cases' ≤ n) :
    Fueled (Budget N b m c) (storeCases cases' idx st) fun r s =>
      Affords n b (k + totalCases (costWeight b) cases') r.2 ∧ Budget N b m c s := by
  induction cases' generalizing idx k st with
  | nil => exact Runs.pure fun _ hs => ⟨h, hs⟩
  | cons d rem ih =>
      obtain ⟨i, act⟩ := d
      rw [totalCases] at hn
      have hact : nodes act ≤ n := by
        unfold nodes
        omega
      refine Runs.bind (actStore_fueled h hact) fun r => Runs.fact fun h1 => ?_
      dsimp only
      split
      · have hrem := @ih (idx.set i r.1) _ _ h1 (by omega)
        rw [totalCases, ← Nat.add_assoc]
        exact hrem
      · exact Fueled.invalidArgument

omit hrec in
theorem labelVector_fueled {lbls : List Label} {idx : List Nat} :
    Fueled (Budget N b m c) (labelVector lbls idx) fun _ => Budget N b m c := by
  induction idx with
  | nil => exact Runs.pure fun _ hs => hs
  | cons i rem ih =>
      refine Runs.bind ih fun ls => ?_
      split
      · exact Runs.pure fun _ hs => hs
      · exact Fueled.invalidArgument

/-- Cases that share an action pay for it more than once. -/
theorem compSwitch_fueled {arg : Lambda} {numconsts numblocks : Nat}
    {consts blocks : List (Nat × Lambda)} {failaction : Option Lambda} (h1 : nodes arg ≤ n)
    (h2 : totalCases nodeWeight consts ≤ n) (h3 : totalCases nodeWeight blocks ≤ n)
    (h4 : totalOpt nodeWeight failaction ≤ n) :
    Fueled (Budget N b m c)
      (compSwitch rec env arg numconsts consts numblocks blocks failaction sz c)
      (Budget N b (m + (cost b arg + totalCases (costWeight b) consts +
        totalCases (costWeight b) blocks + totalOpt (costWeight b) failaction))) := by
  unfold compSwitch
  refine Runs.bind makeBranch_fueled fun r => Runs.fact fun hplain => ?_
  refine Runs.bind (storeDefault_fueled h4) fun st => Runs.fact fun hst => ?_
  refine Runs.bind (storeCases_fueled hst h2) fun st1 => Runs.fact fun hst1 => ?_
  refine Runs.bind (storeCases_fueled hst1 h3) fun st2 => Runs.fact fun hst2 => ?_
  have hacts : Fueled (Budget N b m (discardDeadCode r.2))
      (compActions rec env sz r.1 st2.2.acts (discardDeadCode r.2)) _ :=
    compActions_fueled hrec hplain hst2.nodes
  refine Runs.bind (hacts.pre fun _ hs => hs.mono (discardDeadCode_events _) (Nat.le_refl _))
    fun r2 => ?_
  refine Runs.bind labelVector_fueled fun ls => Runs.bind labelVector_fueled fun ls2 => ?_
  refine hrec.call h1 (Nat.le_refl _) ?_
  have hcost := hst2.cost
  omega

/-! ### The cases of `comp_expr` -/

omit hrec in
theorem compVar_fueled {id : Ident} :
    Fueled (Budget N b m c) (compVar env id sz c) (Budget N b m) := by
  unfold compVar
  split
  · exact Runs.pure fun _ hs => hs.plain rfl
  · split
    · exact Runs.pure fun _ hs => hs.plain rfl
    · split
      · exact Runs.pure fun _ hs => hs.plain rfl
      · exact Fueled.fatalError _

theorem compAssign_fueled {id : Ident} {e : Lambda} (hn : nodes e ≤ n) :
    Fueled (Budget N b m c) (compAssign rec env id e sz c) (Budget N b (m + cost b e)) := by
  unfold compAssign
  split
  · exact hrec.call hn (Nat.le_refl _) (Nat.le_refl _)
  · exact Fueled.fatalError _

theorem compLet_fueled {id : Ident} {arg body : Lambda} (h1 : nodes arg ≤ n)
    (h2 : nodes body ≤ n) :
    Fueled (Budget N b m c) (compLet rec env id arg body sz c)
      (Budget N b (m + (cost b arg + cost b body))) := by
  unfold compLet
  refine Runs.bind (hrec.call h2 (addPop_events _ _).le (Nat.le_refl _)) fun c1 => ?_
  exact hrec.call h1 (Nat.le_refl _) (by omega)

/-- Only the event of a module definition costs nothing, for it makes none. -/
theorem compEvent_fueled {lam : Lambda} {kind : LambdaEventKind} {repr : Option EventRef}
    (hn : nodes lam ≤ n) :
    Fueled (Budget N b m c) (compEvent rec env lam kind repr sz c)
      (Budget N b (m + cost b (.Levent lam kind repr))) := by
  cases kind with
  | Lev_module_definition => exact hrec.call hn (Nat.le_refl _) (Nat.le_refl _)
  | Lev_after =>
      have hcost : m + cost b (.Levent lam .Lev_after repr) = m + b + cost b lam := by
        simp only [cost, total, costWeight, eventWeight]
        omega
      rw [hcost]
      simp only [compEvent]
      split
      · exact hrec.call hn (Nat.le_refl _) (by omega)
      · exact Runs.bind addEvent_fueled fun c1 => hrec.call hn (Nat.le_refl _) (Nat.le_refl _)
  | Lev_before | Lev_function | Lev_pseudo =>
      refine Runs.bind (hrec.call hn (Nat.le_refl _) (Nat.le_refl _)) fun c1 => ?_
      refine addEvent_fueled.post fun _ _ hs => hs.mono (Nat.le_refl _) ?_
      simp only [cost, total, costWeight, eventWeight]
      omega

omit hrec in
/-- An expansion is no larger than the switch, and costs as much. -/
theorem expandSwitch_fueled {loc : ScopedLocation} {arg : Lambda} {sw : List (String × Lambda)}
    {d : Option Lambda} (hn : nodes (.Lstringswitch arg sw d loc) ≤ n + 1) :
    Fueled (Budget N b m c) (expandSwitch loc arg sw d) fun e s =>
      (nodes e ≤ n ∧ cost b e ≤ cost b (.Lstringswitch arg sw d loc)) ∧ Budget N b m c s := by
  have hnodes : Light nodeWeight 1 := by
    intro e he
    unfold isTest at he
    split at he
    all_goals first | exact Nat.le_refl _ | cases he
  have hcost : Light (costWeight b) 0 := by
    intro e he
    unfold isTest at he
    split at he
    all_goals first | exact Nat.le_refl _ | cases he
  unfold expandSwitch
  refine Runs.bind (Runs.get _) fun t => ?_
  cases he : expandStringswitch loc arg sw d t.counters with
  | none => exact Fueled.assertFailed
  | some r =>
      obtain ⟨e, counters⟩ := r
      have h1 := expandStringswitch_light hnodes loc arg sw d _ _ _ he
      have h2 := expandStringswitch_light hcost loc arg sw d _ _ _ he
      have hmod : Fueled (Budget N b m c)
          (modify fun s => { s with counters := counters }) fun _ => Budget N b m c :=
        Fueled.modify (fun _ => rfl) fun _ => rfl
      refine Runs.bind (hmod.pre fun _ hs => hs.2) fun _ => Runs.pure fun _ hs => ⟨⟨?_, ?_⟩, hs⟩
      · rw [nodes, total, nodeWeight] at hn
        rw [AtMost, Nat.one_mul] at h1
        unfold nodes
        omega
      · rw [AtMost, Nat.zero_mul] at h2
        rw [cost, cost, total]
        omega

/-- The budget of one level, when `rec` compiles the subterms. -/
theorem compExprStep_pays (hN : n ≤ N) : Pays N b (n + 1) (compExprStep rec) := by
  intro env e sz c m hn
  unfold compExprStep
  refine Runs.bind checkStack_fueled fun _ => ?_
  have hargs : ∀ {es : List Lambda}, totalList nodeWeight es ≤ n → ∀ e ∈ es, nodes e ≤ n :=
    fun h e he => Nat.le_trans (nodes_of_mem he) h
  cases e with
  | Lvar id => exact compVar_fueled
  | Lmutvar id => exact compVar_fueled
  | Lconst cst => exact Runs.pure fun _ hs => hs.plain rfl
  | Lapply func args loc attrs =>
      change nodes func + totalList nodeWeight args + 1 ≤ n + 1 at hn
      exact Fueled.within (compApply_fueled hrec (by omega) (hargs (by omega)))
        (Nat.le_add_right _ _)
  | Lsend kind met obj args loc =>
      change nodes met + nodes obj + totalList nodeWeight args + 1 ≤ n + 1 at hn
      exact Fueled.within (compSend_fueled hrec (by omega) (by omega) (hargs (by omega)))
        (Nat.le_add_right _ _)
  | Lfunction params body =>
      change nodes body + 1 ≤ n + 1 at hn
      exact compFunctionExpr_fueled hrec (by omega) hN
  | Llet str kind id arg body =>
      change nodes arg + nodes body + 1 ≤ n + 1 at hn
      exact Fueled.within (compLet_fueled hrec (by omega) (by omega)) (Nat.le_add_right _ _)
  | Lmutlet kind id arg body =>
      change nodes arg + nodes body + 1 ≤ n + 1 at hn
      exact Fueled.within (compLet_fueled hrec (by omega) (by omega)) (Nat.le_add_right _ _)
  | Lletrec decl body =>
      change totalDecl nodeWeight decl + nodes body + 1 ≤ n + 1 at hn
      dsimp only
      split
      · exact Fueled.within (compLetrecFunctions_fueled hrec (by omega) (by omega))
          (Nat.le_add_right _ _)
      · exact Fueled.within (compLetrecGeneral_fueled hrec (by omega) (by omega))
          (Nat.le_add_right _ _)
  | Lprim p args loc => exact compPrim_fueled hrec hn
  | Lstaticcatch body i vars handler =>
      change nodes body + nodes handler + 1 ≤ n + 1 at hn
      exact Fueled.within (compStaticcatch_fueled hrec (by omega) (by omega))
        (Nat.le_add_right _ _)
  | Lstaticraise i args =>
      change totalList nodeWeight args + 1 ≤ n + 1 at hn
      exact Fueled.within (compStaticraise_fueled hrec (hargs (by omega))) (Nat.le_add_right _ _)
  | Ltrywith body id handler =>
      change nodes body + nodes handler + 1 ≤ n + 1 at hn
      exact Fueled.within (compTrywith_fueled hrec (by omega) (by omega)) (Nat.le_add_right _ _)
  | Lifthenelse cond ifso ifnot =>
      change nodes cond + nodes ifso + nodes ifnot + 1 ≤ n + 1 at hn
      refine Runs.bind (testCont_fueled hrec (by omega) (by omega)) fun c1 => ?_
      refine hrec.call (by omega) (Nat.le_refl _) ?_
      show _ ≤ m + (cost b cond + cost b ifso + cost b ifnot + costWeight b _)
      omega
  | Lsequence exp1 exp2 =>
      change nodes exp1 + nodes exp2 + 1 ≤ n + 1 at hn
      refine Runs.bind (hrec.call (by omega) (Nat.le_refl _) (Nat.le_refl _)) fun c1 => ?_
      refine hrec.call (by omega) (Nat.le_refl _) ?_
      show _ ≤ m + (cost b exp1 + cost b exp2 + costWeight b _)
      omega
  | Lwhile cond body =>
      change nodes cond + nodes body + 1 ≤ n + 1 at hn
      exact Fueled.within (compWhile_fueled hrec (by omega) (by omega)) (Nat.le_add_right _ _)
  | Lfor param start stop dir body =>
      change nodes start + nodes stop + nodes body + 1 ≤ n + 1 at hn
      exact Fueled.within (compFor_fueled hrec (by omega) (by omega) (by omega))
        (Nat.le_add_right _ _)
  | Lswitch arg numconsts consts numblocks blocks failaction loc =>
      change nodes arg + totalCases nodeWeight consts + totalCases nodeWeight blocks +
        totalOpt nodeWeight failaction + 1 ≤ n + 1 at hn
      exact Fueled.within (compSwitch_fueled hrec (by omega) (by omega) (by omega) (by omega))
        (Nat.le_add_right _ _)
  | Lstringswitch arg strings default loc =>
      refine Runs.bind (expandSwitch_fueled hn) fun e => Runs.fact fun he => ?_
      exact hrec.call he.1 (Nat.le_refl _) (Nat.add_le_add_left he.2 m)
  | Lassign id e =>
      change nodes e + 1 ≤ n + 1 at hn
      exact Fueled.within (compAssign_fueled hrec (by omega)) (Nat.le_add_right _ _)
  | Levent lam kind repr =>
      change nodes lam + 1 ≤ n + 1 at hn
      exact compEvent_fueled hrec (by omega)
  | Lifused id e =>
      change nodes e + 1 ≤ n + 1 at hn
      exact hrec.call (by omega) (Nat.le_refl _) (Nat.add_le_add_left (Nat.le_add_right _ _) m)

end

/-- `comp_expr`, `n` deep, for terms of at most `n` nodes. -/
theorem compExpr_pays (hN : n ≤ N) : Pays N b n (compExpr n) := by
  induction n with
  | zero =>
      intro env e sz c m hn
      exact absurd (nodes_pos e) (Nat.not_lt.mpr hn)
  | succ n ih => exact compExprStep_pays (ih (by omega)) (by omega)

/-! ## Compilation units -/

theorem compBlock_fueled {env : CompilationEnv} {e : Lambda} {sz : Int} (hn : nodes e ≤ n)
    (hc : eventsOf c' ≤ eventsOf c) :
    Fueled (Budget n b m c) (compBlock n env e sz c') (Budget n b (m + cost b e)) := by
  unfold compBlock
  refine Runs.bind (Fueled.modify (fun _ => rfl) fun _ => rfl) fun _ => ?_
  refine Runs.bind ((compExpr_pays (Nat.le_refl n)).call hn hc (Nat.le_refl _)) fun c1 => ?_
  refine Runs.bind (Runs.get _) fun t => ?_
  dsimp only
  split
  · exact Runs.pure fun _ hs => hs.2.mono (Nat.le_refl _) (Nat.le_refl _)
  · exact Runs.pure fun _ hs => hs.2

theorem compFunction_fueled {tc : FunctionToCompile} (hn : nodes tc.body ≤ n) :
    Fueled (Budget n b m c) (compFunction n tc c) (Budget n b (m + cost b tc.body)) := by
  unfold compFunction
  refine Runs.bind (compBlock_fueled hn (Nat.le_refl _)) fun c1 => ?_
  split
  · exact Runs.pure fun _ hs => hs.plain rfl
  · exact Runs.pure fun _ hs => hs.plain rfl

/-- Every function costs one, so there are no more of them than the budget pays for. -/
theorem compRemainder_fueled {k : Nat} (hm : m < k) :
    Fueled (Budget n b m c) (compRemainder n k c) (Budget n b m) := by
  induction k generalizing m c with
  | zero => exact absurd hm (Nat.not_lt_zero m)
  | succ k ih =>
      unfold compRemainder
      refine Runs.bind (Runs.get _) fun t => ?_
      cases hf : t.functionsToCompile with
      | nil => exact Runs.pure fun _ hs => hs.2
      | cons tc rem =>
          intro s hs
          obtain ⟨rfl, hs⟩ := hs
          obtain ⟨hn, hle, hpop⟩ := hs.pop hf
          have hset : Fueled (fun s => s = t)
              (modify fun s => { s with functionsToCompile := rem })
              fun _ => Budget n b (m - (cost b tc.body + 1)) c :=
            Runs.modify fun s hs => by rw [hs]; exact hpop
          refine Runs.bind hset (fun _ => Runs.bind (compFunction_fueled hn) fun c1 => ?_) t rfl
          exact (ih (by omega)).post fun _ _ hs => hs.mono (Nat.le_refl _) (by omega)

/-- A weight that is bounded by two others, for every term, is so in total. -/
theorem total_le {w v u : Lambda → Nat} (h : ∀ e, w e ≤ v e + b * u e) (e : Lambda) :
    total w e ≤ total v e + b * total u e := by
  have plus : ∀ {x1 x2 y1 y2 z1 z2 : Nat}, x1 ≤ y1 + b * z1 → x2 ≤ y2 + b * z2 →
      x1 + x2 ≤ y1 + y2 + b * (z1 + z2) := by
    intro x1 x2 y1 y2 z1 z2 h1 h2
    rw [Nat.mul_add]
    omega
  refine total.induct (fun e => total w e ≤ total v e + b * total u e)
    (fun es => totalStrings w es ≤ totalStrings v es + b * totalStrings u es)
    (fun es => totalOpt w es ≤ totalOpt v es + b * totalOpt u es)
    (fun es => totalCases w es ≤ totalCases v es + b * totalCases u es)
    (fun es => totalDecl w es ≤ totalDecl v es + b * totalDecl u es)
    (fun es => totalList w es ≤ totalList v es + b * totalList u es)
    ?var ?mutvar ?const ?apply ?function ?bind ?mutbind ?letrec ?prim ?switch ?stringswitch
    ?raise ?handler ?trywith ?test ?sequence ?loop ?count ?assign ?send ?event ?used ?nil ?cons
    ?declNil ?declCons ?casesNil ?casesCons ?optNone ?optSome ?stringsNil ?stringsCons e
  case var | mutvar | const => exact fun _ => h _
  case function => exact fun _ _ ih => plus ih (h _)
  case assign => exact fun _ _ ih => plus ih (h _)
  case used => exact fun _ _ ih => plus ih (h _)
  case event => exact fun _ _ _ ih => plus ih (h _)
  case prim => exact fun _ _ _ ih => plus ih (h _)
  case raise => exact fun _ _ ih => plus ih (h _)
  case apply => exact fun _ _ _ _ ih1 ih2 => plus (plus ih1 ih2) (h _)
  case bind => exact fun _ _ _ _ _ ih1 ih2 => plus (plus ih1 ih2) (h _)
  case mutbind => exact fun _ _ _ _ ih1 ih2 => plus (plus ih1 ih2) (h _)
  case letrec => exact fun _ _ ih1 ih2 => plus (plus ih1 ih2) (h _)
  case handler => exact fun _ _ _ _ ih1 ih2 => plus (plus ih1 ih2) (h _)
  case trywith => exact fun _ _ _ ih1 ih2 => plus (plus ih1 ih2) (h _)
  case sequence => exact fun _ _ ih1 ih2 => plus (plus ih1 ih2) (h _)
  case loop => exact fun _ _ ih1 ih2 => plus (plus ih1 ih2) (h _)
  case test => exact fun _ _ _ ih1 ih2 ih3 => plus (plus (plus ih1 ih2) ih3) (h _)
  case count => exact fun _ _ _ _ _ ih1 ih2 ih3 => plus (plus (plus ih1 ih2) ih3) (h _)
  case send => exact fun _ _ _ _ _ ih1 ih2 ih3 => plus (plus (plus ih1 ih2) ih3) (h _)
  case stringswitch => exact fun _ _ _ _ ih1 ih2 ih3 => plus (plus (plus ih1 ih2) ih3) (h _)
  case switch =>
    exact fun _ _ _ _ _ _ _ ih1 ih2 ih3 ih4 => plus (plus (plus (plus ih1 ih2) ih3) ih4) (h _)
  case cons => exact fun _ _ ih1 ih2 => plus ih1 ih2
  case declCons | casesCons | stringsCons => exact fun _ _ _ ih1 ih2 => plus ih1 ih2
  case optSome => exact fun _ ih => ih
  all_goals exact Nat.zero_le _

/-- A term costs no more than it has nodes, but for its events. -/
theorem cost_le (b : Nat) (e : Lambda) : cost b e ≤ nodes e + b * debugEvents e := by
  refine total_le ?_ e
  intro e
  unfold costWeight
  split
  · exact Nat.le_refl _
  · exact Nat.le_add_left _ _

/-- A unit pays for all its functions, so `comp_remainder` comes to its end. -/
theorem compImplementation_fueled {e : Lambda} (hn : nodes e ≤ n) (hm : cost b e ≤ n) :
    Fueled (Budget n b 0 []) (compImplementation n e) (Budget n b (cost b e)) := by
  have hblock : Fueled (Budget n b 0 []) (compBlock n emptyEnv e 0 [])
      (Budget n b (0 + cost b e)) := compBlock_fueled hn (Nat.le_refl _)
  rw [Nat.zero_add] at hblock
  unfold compImplementation
  refine Runs.bind hblock fun initCode => Runs.bind (Runs.get _) fun t => ?_
  split
  · refine Runs.bind (newLabel_fueled.pre fun _ hs => hs.2) fun l => ?_
    have hrem : Fueled (Budget n b (cost b e) (.Klabel l :: initCode)) _ _ :=
      compRemainder_fueled (Nat.lt_succ_of_le hm)
    refine Runs.bind (hrem.pre fun _ hs => hs.plain rfl) fun c1 => ?_
    exact Runs.pure fun _ hs => hs.plain rfl
  · exact Runs.pure fun _ hs => hs.2

/-- The result of a unit, without the state. -/
theorem Fueled.result {α : Type} {P : GenState → Prop} {x : Gen α} {Q : α → GenState → Prop}
    (h : Fueled P x Q) (hs : P s) :
    x.run' s ≠ .error .outOfFuel ∧ ∀ {a}, x.run' s = .ok a → ∃ s', Q a s' := by
  have hends := h s hs
  unfold StateT.run'
  cases hr : x s with
  | ok p =>
      rw [hr] at hends
      refine ⟨fun h => ?_, fun h => ?_⟩
      · cases h
      · cases h
        exact ⟨p.2, hends⟩
  | error e =>
      rw [hr] at hends
      refine ⟨fun h => ?_, fun h => ?_⟩
      · cases h
        exact hends rfl
      · cases h

section

variable {debug : Bool} {counters : Counters} {e : Lambda}

theorem Budget.initial (counters : Counters) (hq : b = 0 ∨ debug = false) :
    Budget N b 0 [] (initialState debug counters) :=
  ⟨hq, fun _ ht => absurd ht List.not_mem_nil, Nat.le_refl _⟩

/-- More than `nodes` is paid for an event, so a budget of `nodes` pays for none. -/
theorem events_unpaid {k : Nat} (h : (nodes e + 1) * k ≤ nodes e) : k = 0 := by
  cases k with
  | zero => rfl
  | succ k =>
      rw [Nat.mul_succ] at h
      omega

/-- Without `-g` the code has no events but those of the term. -/
theorem compileImplementation_quiet {c : Code} (hd : debug = false) (he : debugEvents e = 0)
    (h : compileImplementation debug counters e = .ok c) : eventsOf c = 0 := by
  have hcost := cost_le (nodes e + 1) e
  rw [he, Nat.mul_zero] at hcost
  have hrun := (compImplementation_fueled (Nat.le_refl _) hcost).result
    (Budget.initial counters (.inr hd))
  obtain ⟨s', hs'⟩ := hrun.2 h
  have hp := hs'.paid
  exact events_unpaid (e := e) (by omega)

end

end CamlBytegen
