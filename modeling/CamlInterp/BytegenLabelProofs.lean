import CamlInterp.BytegenProofs
import CamlInterp.AssemblyProofs

/-! # Labels of generated code

    What the code generator does with labels: it only ever puts instructions in
    front of the code it is given, or drops instructions up to the next label,
    so a label once placed stays with the code behind it; every label it places
    is new; and every label it jumps to is placed, or is the entry of a
    function still to be compiled.  `Grown` states this for one call, and every
    function of the generator is shown to keep it. -/

namespace CamlBytegen

open CamlEmit CamlLambda CamlMatching CamlAssembly CamlOpcode

/-! ## The monad -/

theorem bind_run {α β : Type} {x : Gen α} {f : α → Gen β} {s s' : GenState} {b : β} :
    (x >>= f) s = .ok (b, s') ↔ ∃ a s1, x s = .ok (a, s1) ∧ f a s1 = .ok (b, s') := by
  show (x s >>= fun p => f p.1 p.2) = .ok (b, s') ↔ _
  cases x s with
  | error e => simp [bind, Except.bind]
  | ok p =>
      obtain ⟨a, s1⟩ := p
      simp [bind, Except.bind]

theorem pure_run {α : Type} {a b : α} {s s' : GenState} :
    (pure a : Gen α) s = .ok (b, s') ↔ a = b ∧ s = s' := by
  show (Except.ok (a, s) : Except GenError (α × GenState)) = .ok (b, s') ↔ _
  simp

theorem throw_run {α : Type} {e : GenError} {s s' : GenState} {b : α} :
    ¬ (throw e : Gen α) s = .ok (b, s') := by
  intro h
  cases h

theorem modify_run {f : GenState → GenState} {s s' : GenState} {u : PUnit} :
    (modify f : Gen PUnit) s = .ok (u, s') ↔ f s = s' := by
  show (Except.ok (PUnit.unit, f s) : Except GenError (PUnit × GenState)) = .ok (u, s') ↔ _
  simp

theorem get_run {s s' t : GenState} :
    (get : Gen GenState) s = .ok (t, s') ↔ s = t ∧ s = s' := by
  show (Except.ok (s, s) : Except GenError (GenState × GenState)) = .ok (t, s') ↔ _
  simp

theorem assertGen_run {b : Bool} {s s' : GenState} {u : Unit} :
    assertGen b s = .ok (u, s') ↔ b = true ∧ s = s' := by
  unfold assertGen
  cases b with
  | true =>
      rw [if_pos rfl, pure_run]
      simp
  | false =>
      simp only [Bool.false_eq_true, if_false, false_and, iff_false]
      exact throw_run

/-! ## Labels in a piece of code -/

/-- The entries of the functions still to be compiled. -/
def pending (s : GenState) : List Label := s.functionsToCompile.map FunctionToCompile.label

/-- The handlers of the static exceptions in scope. -/
def handlers (s : GenState) : List Label := s.szStaticRaises.map fun r => r.2.1

/-- An instruction that is no label. -/
def Bare (i : Instruction) : Prop := ∀ c, labelled (i :: c) = labelled c

/-! ## One call of the generator -/

/-- Labels in use are distinct and were all handed out; `R` are labels that are
    to be placed elsewhere. -/
structure Distinct (R : List Label) (s : GenState) (c : Code) : Prop where
  nodup : (R ++ labelsOf c ++ pending s).Nodup
  bound : ∀ {l}, l ∈ R ++ labelsOf c ++ pending s → l ≤ s.labelCounter

/-- Where a label may stand that the code `c'`, made in front of `c`, refers to. -/
def Known (s : GenState) (c : Code) (s' : GenState) (c' : Code) (l : Label) : Prop :=
  l ∈ refsOf c ∨ l ∈ labelsOf c' ∨ l ∈ pending s' ∨ l ∈ handlers s

/-- The generator was called in state `s` on the continuation `c`, returned the
    code `c'`, and left the state `s'`. -/
structure Grown (s : GenState) (c : Code) (s' : GenState) (c' : Code) : Prop where
  raises : s'.szStaticRaises = s.szStaticRaises
  tries : s'.tryBlocks = s.tryBlocks
  functions : s.functionsToCompile <:+ s'.functionsToCompile
  kept : labelled c <:+ labelled c'
  distinct : ∀ {R}, Distinct R s c → Distinct R s' c'
  known : ∀ {l}, l ∈ refsOf c' → Known s c s' c' l

variable {s s1 s2 s' : GenState} {c c1 c2 c' : Code}

theorem Grown.refl (s : GenState) (c : Code) : Grown s c s c :=
  ⟨rfl, rfl, List.suffix_rfl, List.suffix_rfl, id, Or.inl⟩

theorem pending_of_suffix (h : s.functionsToCompile <:+ s'.functionsToCompile) {l : Label}
    (hl : l ∈ pending s) : l ∈ pending s' :=
  (h.map FunctionToCompile.label).subset hl

/-- One call after the other, on the code that the first one returned. -/
theorem Grown.trans (h : Grown s c s1 c1) (h' : Grown s1 c1 s' c') : Grown s c s' c' where
  raises := h'.raises.trans h.raises
  tries := h'.tries.trans h.tries
  functions := h.functions.trans h'.functions
  kept := h.kept.trans h'.kept
  distinct := fun hd => h'.distinct (h.distinct hd)
  known := by
    intro l hl
    rcases h'.known hl with hl | hl | hl | hl
    · rcases h.known hl with hl | hl | hl | hl
      · exact .inl hl
      · exact .inr (.inl (labelsOf_of_suffix h'.kept hl))
      · exact .inr (.inr (.inl (pending_of_suffix h'.functions hl)))
      · exact .inr (.inr (.inr hl))
    · exact .inr (.inl hl)
    · exact .inr (.inr (.inl hl))
    · have hh : handlers s1 = handlers s := by rw [handlers, h.raises, handlers]
      rw [hh] at hl
      exact .inr (.inr (.inr hl))

/-- Code with the same labels, and no more references. -/
theorem Grown.same (s : GenState) (hl : labelled c' = labelled c)
    (hr : ∀ {l}, l ∈ refsOf c' → l ∈ refsOf c) : Grown s c s c' where
  raises := rfl
  tries := rfl
  functions := List.suffix_rfl
  kept := hl ▸ List.suffix_rfl
  distinct := by
    intro R hd
    have hlab : labelsOf c' = labelsOf c := congrArg (List.map Prod.fst) hl
    exact ⟨hlab ▸ hd.nodup, fun hm => hd.bound (hlab ▸ hm)⟩
  known := fun hm => .inl (hr hm)

/-- Nothing that concerns labels has changed. -/
structure Noted (s s' : GenState) : Prop where
  labels : s'.labelCounter = s.labelCounter
  raises : s'.szStaticRaises = s.szStaticRaises
  tries : s'.tryBlocks = s.tryBlocks
  functions : s'.functionsToCompile = s.functionsToCompile

theorem Noted.trans (h : Noted s s1) (h' : Noted s1 s') : Noted s s' :=
  ⟨h'.labels.trans h.labels, h'.raises.trans h.raises, h'.tries.trans h.tries,
    h'.functions.trans h.functions⟩

/-- The stack use may have been noted, or a counter of another module advanced. -/
theorem Grown.noted (h : Grown s c s1 c') (hn : Noted s1 s') : Grown s c s' c' where
  raises := hn.raises.trans h.raises
  tries := hn.tries.trans h.tries
  functions := hn.functions ▸ h.functions
  kept := h.kept
  distinct := by
    intro R hd
    have h1 := h.distinct hd
    have hp : pending s' = pending s1 := congrArg (List.map _) hn.functions
    constructor
    · rw [hp]
      exact h1.nodup
    · intro l hm
      rw [hp] at hm
      rw [hn.labels]
      exact h1.bound hm
  known := by
    intro l hl
    have hp : pending s' = pending s1 := congrArg (List.map _) hn.functions
    rw [Known, hp]
    exact h.known hl

/-- Put an instruction in front that is no label and refers to none but those of
    the continuation. -/
theorem Grown.cons (h : Grown s c s' c') {i : Instruction} (hb : Bare i)
    (hr : ∀ {l}, l ∈ refs i → Known s c s' c' l) : Grown s c s' (i :: c') where
  raises := h.raises
  tries := h.tries
  functions := h.functions
  kept := by
    rw [hb]
    exact h.kept
  distinct := by
    intro R hd
    have hlab : labelsOf (i :: c') = labelsOf c' := congrArg (List.map Prod.fst) (hb c')
    have h1 := h.distinct hd
    exact ⟨hlab ▸ h1.nodup, fun hm => h1.bound (hlab ▸ hm)⟩
  known := by
    intro l hl
    have hlab : labelsOf (i :: c') = labelsOf c' := congrArg (List.map Prod.fst) (hb c')
    rw [Known, hlab]
    rw [refsOf_cons, List.mem_append] at hl
    rcases hl with hl | hl
    · exact hr hl
    · exact h.known hl

/-- The same for an instruction without references. -/
theorem Grown.plain (h : Grown s c s' c') {i : Instruction} (hb : Bare i) (hr : refs i = []) :
    Grown s c s' (i :: c') :=
  h.cons hb (by rw [hr]; exact fun hl => absurd hl List.not_mem_nil)

theorem Known.mono {l : Label} (h : Known s c s1 c1 l) (hk : labelled c1 <:+ labelled c')
    (hf : s1.functionsToCompile <:+ s'.functionsToCompile) : Known s c s' c' l := by
  rcases h with h | h | h | h
  · exact .inl h
  · exact .inr (.inl (labelsOf_of_suffix hk h))
  · exact .inr (.inr (.inl (pending_of_suffix hf h)))
  · exact .inr (.inr (.inr h))

/-- Generate behind an instruction that is no label. -/
theorem Grown.under {i : Instruction} (h : Grown s c s' c') (hb : Bare i) :
    Grown s (i :: c) s' (i :: c') where
  raises := h.raises
  tries := h.tries
  functions := h.functions
  kept := by
    rw [hb, hb]
    exact h.kept
  distinct := by
    intro R hd
    have hlab : labelsOf (i :: c) = labelsOf c := congrArg (List.map Prod.fst) (hb c)
    have hlab' : labelsOf (i :: c') = labelsOf c' := congrArg (List.map Prod.fst) (hb c')
    have h1 := h.distinct (R := R) ⟨hlab ▸ hd.nodup, fun hm => hd.bound (hlab ▸ hm)⟩
    exact ⟨hlab' ▸ h1.nodup, fun hm => h1.bound (hlab' ▸ hm)⟩
  known := by
    intro l hl
    have hlab' : labelsOf (i :: c') = labelsOf c' := congrArg (List.map Prod.fst) (hb c')
    rw [Known, hlab']
    rw [refsOf_cons, List.mem_append] at hl ⊢
    rcases hl with hl | hl
    · exact .inl (.inl hl)
    · rcases h.known hl with h1 | h1
      · exact .inl (.inr h1)
      · exact .inr h1

/-- A label of the code generated first is known when more has been generated. -/
theorem Grown.known_after {l : Label} (h' : Grown s1 c1 s' c')
    (hl : l ∈ labelsOf c1 ∨ l ∈ refsOf c) : Known s c s' c' l := by
  rcases hl with hl | hl
  · exact .inr (.inl (labelsOf_of_suffix h'.kept hl))
  · exact .inl hl

/-- Put an instruction in front that refers to one label. -/
theorem Grown.jump {i : Instruction} {l : Label} (h : Grown s c s' c') (hr : refs i = [l])
    (hl : Known s c s' c' l) : Grown s c s' (i :: c') := by
  refine h.cons ?_ ?_
  · intro d
    cases i with
    | Klabel lbl => cases hr
    | _ => rfl
  · intro l' hl'
    rw [hr] at hl'
    rw [List.mem_singleton.mp hl']
    exact hl

/-! ## New labels -/

theorem newLabel_run {l : Label} (h : newLabel s = .ok (l, s')) :
    l = s.labelCounter + 1 ∧ s' = { s with labelCounter := s.labelCounter + 1 } := by
  unfold newLabel at h
  rw [bind_run] at h
  obtain ⟨u, s1, h1, h⟩ := h
  obtain rfl := modify_run.mp h1
  rw [bind_run] at h
  obtain ⟨t, s2, h2, h⟩ := h
  obtain ⟨rfl, rfl⟩ := get_run.mp h2
  obtain ⟨rfl, rfl⟩ := pure_run.mp h
  exact ⟨rfl, rfl⟩

/-- A new label is reserved until it is placed. -/
theorem Distinct.reserve {R : List Label} {l : Label} (h : newLabel s = .ok (l, s'))
    (hd : Distinct R s c) : Distinct (l :: R) s' c := by
  obtain ⟨rfl, rfl⟩ := newLabel_run h
  constructor
  · rw [List.cons_append, List.cons_append, List.nodup_cons]
    refine ⟨?_, hd.nodup⟩
    intro hm
    exact Nat.not_succ_le_self _ (hd.bound hm)
  · intro l hm
    rw [List.cons_append, List.cons_append, List.mem_cons] at hm
    rcases hm with rfl | hm
    · exact Nat.le_refl _
    · exact Nat.le_succ_of_le (hd.bound hm)

/-- Place a reserved label. -/
theorem Distinct.place {R : List Label} {l : Label} (hd : Distinct (l :: R) s c) :
    Distinct R s (.Klabel l :: c) := by
  have hp : (R ++ labelsOf (.Klabel l :: c) ++ pending s).Perm
      (l :: R ++ labelsOf c ++ pending s) := by
    have hlab : labelsOf (.Klabel l :: c) = l :: labelsOf c := rfl
    rw [hlab]
    exact (@List.perm_middle _ l R (labelsOf c)).append_right _
  exact ⟨hp.nodup_iff.mpr hd.nodup, fun hm => hd.bound (hp.subset hm)⟩

/-- A reserved label becomes the entry of a function. -/
theorem Distinct.push {R : List Label} {tc : FunctionToCompile}
    (hd : Distinct (tc.label :: R) s c) :
    Distinct R { s with functionsToCompile := tc :: s.functionsToCompile } c := by
  have hp : (R ++ labelsOf c ++
      pending { s with functionsToCompile := tc :: s.functionsToCompile }).Perm
      (tc.label :: R ++ labelsOf c ++ pending s) :=
    @List.perm_middle _ tc.label (R ++ labelsOf c) (pending s)
  exact ⟨hp.nodup_iff.mpr hd.nodup, fun hm => hd.bound (hp.subset hm)⟩

/-- `new_label` leaves everything else as it is. -/
structure Counted (s s' : GenState) : Prop where
  raises : s'.szStaticRaises = s.szStaticRaises
  tries : s'.tryBlocks = s.tryBlocks
  functions : s'.functionsToCompile = s.functionsToCompile

theorem newLabel_counted {l : Label} (h : newLabel s = .ok (l, s')) : Counted s s' := by
  obtain ⟨-, rfl⟩ := newLabel_run h
  exact ⟨rfl, rfl, rfl⟩

/-- Take a label, and place it in front. -/
theorem Grown.newLabel {l : Label} (h : CamlBytegen.newLabel s = .ok (l, s')) (c : Code) :
    Grown s c s' (.Klabel l :: c) := by
  have hc := newLabel_counted h
  refine ⟨hc.raises, hc.tries, hc.functions ▸ List.suffix_rfl, List.suffix_cons _ _, ?_, Or.inl⟩
  intro R hd
  exact (hd.reserve h).place

/-- Code is generated while a label is reserved, which is then placed. -/
theorem Grown.place {l : Label} (hl : CamlBytegen.newLabel s = .ok (l, s1))
    (h : Grown s1 c s' c') : Grown s c s' (.Klabel l :: c') := by
  have hc := newLabel_counted hl
  refine ⟨h.raises.trans hc.raises, h.tries.trans hc.tries, hc.functions ▸ h.functions,
    h.kept.trans (List.suffix_cons _ _), fun hd => (h.distinct (hd.reserve hl)).place, ?_⟩
  intro l' hl'
  have hh : handlers s1 = handlers s := by rw [handlers, hc.raises, handlers]
  rcases h.known hl' with h1 | h1 | h1 | h1
  · exact .inl h1
  · exact .inr (.inl (List.mem_cons_of_mem _ h1))
  · exact .inr (.inr (.inl h1))
  · exact .inr (.inr (.inr (hh ▸ h1)))

/-- The references of an instruction in front of the continuation are placed by
    the code generated. -/
theorem Grown.unref {i : Instruction} (h : Grown s (i :: c) s' c') (hb : Bare i)
    (hr : ∀ {l}, l ∈ refs i → l ∈ labelsOf c') : Grown s c s' c' where
  raises := h.raises
  tries := h.tries
  functions := h.functions
  kept := by
    have hk := h.kept
    rw [hb] at hk
    exact hk
  distinct := by
    intro R hd
    have hlab : labelsOf (i :: c) = labelsOf c := congrArg (List.map Prod.fst) (hb c)
    exact h.distinct ⟨hlab.symm ▸ hd.nodup, fun hm => hd.bound (hlab ▸ hm)⟩
  known := by
    intro l hl
    rcases h.known hl with h1 | h1
    · rw [refsOf_cons, List.mem_append] at h1
      rcases h1 with h1 | h1
      · exact .inr (.inl (hr h1))
      · exact .inl h1
    · exact .inr h1

/-- A new label becomes the entry of a function to compile. -/
theorem Grown.entry {l : Label} (hl : CamlBytegen.newLabel s = .ok (l, s1))
    {tc : FunctionToCompile} (htc : tc.label = l) (c : Code) :
    Grown s c { s1 with functionsToCompile := tc :: s1.functionsToCompile } c := by
  subst htc
  have hc := newLabel_counted hl
  refine ⟨hc.raises, hc.tries, ?_, List.suffix_rfl, fun hd => (hd.reserve hl).push, Or.inl⟩
  show s.functionsToCompile <:+ tc :: s1.functionsToCompile
  rw [hc.functions]
  exact List.suffix_cons _ _

/-- Code generated in the scope of a static exception. -/
theorem Grown.catch {r : Int × Label × Int × List Int}
    (h : Grown { s with szStaticRaises := r :: s.szStaticRaises } c s' c')
    (hl : r.2.1 ∈ labelsOf c ∨ r.2.1 ∈ refsOf c) :
    Grown s c { s' with szStaticRaises := s'.szStaticRaises.tail } c' where
  raises := by
    show s'.szStaticRaises.tail = _
    rw [h.raises]
    rfl
  tries := h.tries
  functions := h.functions
  kept := h.kept
  distinct := by
    intro R hd
    have h1 := h.distinct (R := R) ⟨hd.nodup, hd.bound⟩
    exact ⟨h1.nodup, h1.bound⟩
  known := by
    intro l hm
    rcases h.known hm with h1 | h1 | h1 | h1
    · exact .inl h1
    · exact .inr (.inl h1)
    · exact .inr (.inr (.inl h1))
    · rcases List.mem_cons.mp h1 with rfl | h1
      · rcases hl with hl | hl
        · exact .inr (.inl (labelsOf_of_suffix h.kept hl))
        · exact .inl hl
      · exact .inr (.inr (.inr h1))

/-- Code generated in a `try` block. -/
theorem Grown.try {sz : Int} (h : Grown { s with tryBlocks := sz :: s.tryBlocks } c s' c') :
    Grown s c { s' with tryBlocks := s'.tryBlocks.tail } c' where
  raises := h.raises
  tries := by
    show s'.tryBlocks.tail = _
    rw [h.tries]
    rfl
  functions := h.functions
  kept := h.kept
  distinct := by
    intro R hd
    have h1 := h.distinct (R := R) ⟨hd.nodup, hd.bound⟩
    exact ⟨h1.nodup, h1.bound⟩
  known := h.known

/-! ## The continuation -/

theorem checkStack_run {sz : Int} {u : Unit} (h : checkStack sz s = .ok (u, s')) :
    Noted s s' := by
  obtain rfl := modify_run.mp h
  exact ⟨rfl, rfl, rfl, rfl⟩

/-- The label that `label_code` returns stands in the code, or is the target of the
    branch that the code begins with. -/
theorem labelCode_placed {l : Label} (h : labelCode c s = .ok ((l, c'), s')) :
    Grown s c s' c' ∧ (l ∈ labelsOf c' ∨ l ∈ refsOf c ∧ l ∈ refsOf c') := by
  unfold labelCode at h
  split at h
  · next lbl c =>
      obtain ⟨heq, rfl⟩ := pure_run.mp h
      obtain ⟨rfl, rfl⟩ := Prod.mk.inj heq
      have hm := List.mem_append_left (refsOf c) (List.mem_singleton_self lbl)
      exact ⟨.refl s _, .inr ⟨hm, hm⟩⟩
  · next lbl c =>
      obtain ⟨heq, rfl⟩ := pure_run.mp h
      obtain ⟨rfl, rfl⟩ := Prod.mk.inj heq
      exact ⟨.refl s _, .inl (List.mem_cons_self ..)⟩
  · rw [bind_run] at h
    obtain ⟨lbl, s1, h1, h⟩ := h
    obtain ⟨heq, rfl⟩ := pure_run.mp h
    obtain ⟨rfl, rfl⟩ := Prod.mk.inj heq
    exact ⟨.newLabel h1 c, .inl (List.mem_cons_self ..)⟩

theorem labelCode_grown {l : Label} (h : labelCode c s = .ok ((l, c'), s')) :
    Grown s c s' c' ∧ (l ∈ labelsOf c' ∨ l ∈ refsOf c) := by
  obtain ⟨hg, hl⟩ := labelCode_placed h
  exact ⟨hg, hl.imp_right And.left⟩

/-- What `make_branch` returns. -/
structure Branched (s : GenState) (c : Code) (s' : GenState) (i : Instruction) (c' : Code) :
    Prop where
  grown : Grown s c s' c'
  bare : Bare i
  known : ∀ {l}, l ∈ refs i → l ∈ labelsOf c' ∨ l ∈ refsOf c

/-- The branch goes to a label of the continuation, or returns from it. -/
theorem makeBranch2_branched {lbl : Option Label} {n : Int} {d : Code} {i : Instruction}
    (hlbl : ∀ l, lbl = some l → l ∈ labelsOf c)
    (h : makeBranch2 lbl n c d s = .ok ((i, c'), s')) : Branched s c s' i c' := by
  fun_induction makeBranch2 lbl n c d with
  | case1 =>
      obtain ⟨heq, rfl⟩ := pure_run.mp h
      obtain ⟨rfl, rfl⟩ := Prod.mk.inj heq
      exact ⟨.refl s _, fun _ => rfl, fun hl => absurd hl List.not_mem_nil⟩
  | case2 n l d ih => exact ih h
  | case3 n m d ih => exact ih h
  | case4 =>
      obtain ⟨heq, rfl⟩ := pure_run.mp h
      obtain ⟨rfl, rfl⟩ := Prod.mk.inj heq
      refine ⟨.refl s _, fun _ => rfl, ?_⟩
      intro l' hl'
      rw [List.mem_singleton.mp hl']
      exact .inl (hlbl _ (by assumption))
  | case5 =>
      rw [bind_run] at h
      obtain ⟨l, s1, h1, h⟩ := h
      obtain ⟨heq, rfl⟩ := pure_run.mp h
      obtain ⟨rfl, rfl⟩ := Prod.mk.inj heq
      refine ⟨.newLabel h1 _, fun _ => rfl, ?_⟩
      intro l' hl'
      rw [List.mem_singleton.mp hl']
      exact .inl (List.mem_cons_self ..)

/-- What `make_branch` returns does as the continuation does. -/
theorem makeBranch_branched {i : Instruction} (h : makeBranch c s = .ok ((i, c'), s')) :
    Branched s c s' i c' := by
  unfold makeBranch at h
  split at h
  · next lbl c =>
      obtain ⟨heq, rfl⟩ := pure_run.mp h
      obtain ⟨rfl, rfl⟩ := Prod.mk.inj heq
      exact ⟨.refl s _, fun _ => rfl, fun hl => .inr (List.mem_append_left _ hl)⟩
  · obtain ⟨heq, rfl⟩ := pure_run.mp h
    obtain ⟨rfl, rfl⟩ := Prod.mk.inj heq
    exact ⟨.refl s _, fun _ => rfl, fun hl => absurd hl List.not_mem_nil⟩
  · obtain ⟨heq, rfl⟩ := pure_run.mp h
    obtain ⟨rfl, rfl⟩ := Prod.mk.inj heq
    exact ⟨.refl s _, fun _ => rfl, fun hl => absurd hl List.not_mem_nil⟩
  · next lbl c =>
      refine makeBranch2_branched ?_ h
      rintro l ⟨⟩
      exact List.mem_cons_self ..
  · refine makeBranch2_branched ?_ h
    intro l hl
    cases hl

/-- A branch in front of code behind the labels of the continuation. -/
theorem Branched.cons {i : Instruction} (hb : Branched s c s1 i c1) (h : Grown s1 c1 s' c') :
    Grown s c s' (i :: c') := by
  refine (hb.grown.trans h).cons hb.bare ?_
  intro l hl
  rcases hb.known hl with h1 | h1
  · exact .inr (.inl (labelsOf_of_suffix h.kept h1))
  · exact .inl h1

/-- Dead code is dropped up to the next label, so no label is lost. -/
theorem discardDeadCode_grown (s : GenState) (c : Code) : Grown s c s (discardDeadCode c) := by
  have hmain : labelled (discardDeadCode c) = labelled c ∧
      ∀ {l}, l ∈ refsOf (discardDeadCode c) → l ∈ refsOf c := by
    fun_induction discardDeadCode c with
    | case1 => exact ⟨rfl, id⟩
    | case2 => exact ⟨rfl, id⟩
    | case3 => exact ⟨rfl, id⟩
    | case4 => exact ⟨rfl, id⟩
    | case5 i c h1 h2 h3 ih =>
        refine ⟨?_, fun hl => List.mem_append_right _ (ih.2 hl)⟩
        rw [ih.1]
        cases i with
        | Klabel lbl => exact absurd rfl (h1 lbl)
        | _ => rfl
  exact .same s hmain.1 hmain.2

theorem addPop_grown (s : GenState) (n : Int) (c : Code) : Grown s c s (addPop n c) := by
  have hmain : labelled (addPop n c) = labelled c ∧
      ∀ {l}, l ∈ refsOf (addPop n c) → l ∈ refsOf c := by
    fun_induction addPop n c with
    | case2 n m c hn ih => exact ih
    | _ => exact ⟨rfl, id⟩
  exact .same s hmain.1 hmain.2

theorem addConstUnit_grown (s : GenState) (c : Code) : Grown s c s (addConstUnit c) := by
  unfold addConstUnit
  split
  · exact .refl s _
  · exact .refl s _
  · exact .refl s _
  · exact .refl s _
  · exact (Grown.refl s c).plain (fun _ => rfl) rfl

theorem pushDummies_grown (s : GenState) (n : Nat) (c : Code) : Grown s c s (pushDummies n c) := by
  induction n with
  | zero => exact .refl s c
  | succ n ih => exact (ih.plain (fun _ => rfl) rfl).plain (fun _ => rfl) rfl

theorem notCont_grown (s : GenState) (c : Code) : Grown s c s (notCont c) := by
  unfold notCont
  split
  · exact .same s rfl id
  · exact .same s rfl id
  · exact (Grown.refl s c).plain (fun _ => rfl) rfl

theorem floatcompCont_grown (s : GenState) (cmp : FloatComparison) (c : Code) :
    Grown s c s (floatcompCont cmp c) := by
  cases cmp with
  | CFnlt | CFngt | CFnle | CFnge =>
      exact ((Grown.refl s c).plain (fun _ => rfl) rfl).plain (fun _ => rfl) rfl
  | _ => exact (Grown.refl s c).plain (fun _ => rfl) rfl

/-! ## Events -/

theorem newEventRef_run {r : EventRef} (h : newEventRef s = .ok (r, s')) : Noted s s' := by
  unfold newEventRef at h
  rw [bind_run] at h
  obtain ⟨u, s1, h1, h⟩ := h
  obtain rfl := modify_run.mp h1
  rw [bind_run] at h
  obtain ⟨t, s2, h2, h⟩ := h
  obtain ⟨rfl, rfl⟩ := get_run.mp h2
  obtain ⟨-, rfl⟩ := pure_run.mp h
  exact ⟨rfl, rfl, rfl, rfl⟩

/-- Events are put in front of the code or changed, and nothing else. -/
theorem weakenEvent_grown {ev : DebugEvent} (h : weakenEvent ev c s = .ok (c', s')) :
    Grown s c s' c' := by
  revert h
  fun_cases weakenEvent ev c with
  | case1 =>
      intro h
      rw [bind_run] at h
      obtain ⟨r, s1, h1, h⟩ := h
      have hn := newEventRef_run h1
      obtain ⟨rfl, rfl⟩ := pure_run.mp h
      refine Grown.noted (Grown.same s ?_ ?_) hn
      · rfl
      · exact fun hl => hl
  | case2 =>
      intro h
      obtain ⟨rfl, rfl⟩ := pure_run.mp h
      exact .refl s _
  | case3 =>
      intro h
      obtain ⟨rfl, rfl⟩ := pure_run.mp h
      exact (Grown.refl s c).plain (fun _ => rfl) rfl

theorem addEvent_grown {ev : DebugEvent} (h : addEvent ev c s = .ok (c', s')) :
    Grown s c s' c' := by
  revert h
  fun_cases addEvent ev c with
  | case1 ev' cont =>
      intro h
      have hs : Grown s (.Kevent ev' :: cont) s cont := .same s rfl id
      exact hs.trans (weakenEvent_grown h)
  | case2 => exact fun h => absurd h throw_run
  | case3 => exact fun h => weakenEvent_grown h

theorem addPseudoEvent_grown (h : addPseudoEvent c s = .ok (c', s')) : Grown s c s' c' := by
  unfold addPseudoEvent at h
  rw [bind_run] at h
  obtain ⟨t, s1, h1, h⟩ := h
  obtain ⟨rfl, rfl⟩ := get_run.mp h1
  split at h
  · exact addEvent_grown h
  · obtain ⟨rfl, rfl⟩ := pure_run.mp h
    exact .refl s _

/-! ## Static exceptions -/

/-- `List.assoc` returns what stands in the list. -/
theorem mem_of_assoc {α : Type} {i : Int} {a : α} {xs : List (Int × α)}
    (h : assoc i xs = some a) : (i, a) ∈ xs := by
  induction xs with
  | nil => cases h
  | cons x xs ih =>
      obtain ⟨j, b⟩ := x
      unfold assoc at h
      by_cases hj : j = i
      · rw [if_pos hj] at h
        cases h
        subst hj
        exact List.mem_cons_self ..
      · rw [if_neg hj] at h
        exact List.mem_cons_of_mem _ (ih h)

/-- `find_raise_label` finds a handler in scope, and changes nothing. -/
theorem findRaiseLabel_run {i : Int} {x : Label × Int × List Int}
    (h : findRaiseLabel i s = .ok (x, s')) : assoc i s.szStaticRaises = some x ∧ s' = s := by
  unfold findRaiseLabel at h
  rw [bind_run] at h
  obtain ⟨t, s1, h1, h⟩ := h
  obtain ⟨rfl, rfl⟩ := get_run.mp h1
  cases hy : assoc i s.szStaticRaises with
  | none =>
      rw [hy] at h
      exact absurd h throw_run
  | some y =>
      rw [hy] at h
      obtain ⟨rfl, rfl⟩ := pure_run.mp h
      exact ⟨rfl, rfl⟩

theorem mem_handlers {i : Int} {l : Label} {size : Int} {tb : List Int}
    (h : assoc i s.szStaticRaises = some (l, size, tb)) : l ∈ handlers s :=
  List.mem_map.mpr ⟨_, mem_of_assoc h, rfl⟩

/-- `code_as_jump` returns the handler of an exit without arguments, and only at the
    depth of the stack that the handler expects. -/
theorem codeAsJump_run {e : Lambda} {sz : Int} {o : Option Label}
    (h : codeAsJump e sz s = .ok (o, s')) : s' = s ∧ ∀ l, o = some l →
      ∃ i size tb, e = .Lstaticraise i [] ∧ assoc i s.szStaticRaises = some (l, size, tb) ∧
        sz = size ∧ sameTryBlocks tb s.tryBlocks = true := by
  unfold codeAsJump at h
  split at h
  · next i =>
      rw [bind_run] at h
      obtain ⟨⟨l, size, tb⟩, s1, h1, h⟩ := h
      obtain ⟨ha, rfl⟩ := findRaiseLabel_run h1
      rw [bind_run] at h
      obtain ⟨t, s2, h2, h⟩ := h
      obtain ⟨rfl, rfl⟩ := get_run.mp h2
      by_cases hc : (decide (sz = size) && sameTryBlocks tb s1.tryBlocks) = true
      · rw [if_pos hc] at h
        obtain ⟨rfl, rfl⟩ := pure_run.mp h
        obtain ⟨hsz, htb⟩ := Bool.and_eq_true_iff.mp hc
        refine ⟨rfl, ?_⟩
        rintro l' ⟨⟩
        exact ⟨i, size, tb, rfl, ha, of_decide_eq_true hsz, htb⟩
      · rw [if_neg hc] at h
        obtain ⟨rfl, rfl⟩ := pure_run.mp h
        exact ⟨rfl, fun _ hl => by cases hl⟩
  · obtain ⟨rfl, rfl⟩ := pure_run.mp h
    exact ⟨rfl, fun _ hl => by cases hl⟩

/-- `Kpoptrap` and `Kpop` are put in front; they have no labels. -/
theorem leaveTries_run {tb tbb : List Int} {size sz : Int}
    (h : leaveTries tb size c sz tbb s = .ok (c', s')) :
    s' = s ∧ Grown s c s c' := by
  induction tbb generalizing sz c' s' with
  | nil =>
      unfold leaveTries at h
      by_cases htb : sameTryBlocks tb [] = true
      · rw [if_pos htb] at h
        obtain ⟨rfl, rfl⟩ := pure_run.mp h
        exact ⟨rfl, addPop_grown s _ c⟩
      · rw [if_neg htb] at h
        exact absurd h throw_run
  | cons t tbb ih =>
      unfold leaveTries at h
      by_cases htb : sameTryBlocks tb (t :: tbb) = true
      · rw [if_pos htb] at h
        obtain ⟨rfl, rfl⟩ := pure_run.mp h
        exact ⟨rfl, addPop_grown s _ c⟩
      · rw [if_neg htb] at h
        rw [bind_run] at h
        obtain ⟨c1, s1, h1, h⟩ := h
        obtain ⟨rfl, hg⟩ := ih h1
        obtain ⟨rfl, rfl⟩ := pure_run.mp h
        exact ⟨rfl, (hg.plain (fun _ => rfl) rfl).trans (addPop_grown s1 _ _)⟩

/-- The jump to a handler in scope, unless the code goes there anyway. -/
theorem branchTo_grown {l : Label} (hl : l ∈ handlers s) (c : Code) :
    Grown s c s (branchTo l c) := by
  have hcons : Grown s c s (.Kbranch l :: c) := by
    refine (Grown.refl s c).cons (fun _ => rfl) ?_
    intro l' hl'
    rw [List.mem_singleton.mp hl']
    exact .inr (.inr (.inr hl))
  unfold branchTo
  split
  · split
    · exact .refl s _
    · exact hcons
  · exact hcons

/-! ## The functions of the generator -/

/-- A generator that keeps labels. -/
def Keeps (rec : CompExpr) : Prop :=
  ∀ {env : CompilationEnv} {e : Lambda} {sz : Int} {c c' : Code} {s s' : GenState},
    rec env e sz c s = .ok (c', s') → Grown s c s' c'

section

variable {rec : CompExpr} (hrec : Keeps rec) {env : CompilationEnv} {sz : Int}
include hrec

/-- Terms compiled one in front of the other. -/
theorem compExprList_grown {es : List Lambda}
    (h : compExprList rec env es sz c s = .ok (c', s')) : Grown s c s' c' := by
  induction es generalizing sz c' s' with
  | nil =>
      obtain ⟨rfl, rfl⟩ := pure_run.mp h
      exact .refl s _
  | cons e es ih =>
      cases es with
      | nil => exact hrec h
      | cons e2 es =>
          unfold compExprList at h
          rw [bind_run] at h
          obtain ⟨c1, s1, h1, h⟩ := h
          exact ((ih h1).plain (fun _ => rfl) rfl).trans (hrec h)

theorem compArgs_grown {es : List Lambda} (h : compArgs rec env es sz c s = .ok (c', s')) :
    Grown s c s' c' :=
  compExprList_grown hrec h

theorem compExprListAssign_grown {es : List Lambda} {pos : Int}
    (h : compExprListAssign rec env es sz pos c s = .ok (c', s')) : Grown s c s' c' := by
  induction es generalizing pos c' s' with
  | nil =>
      obtain ⟨rfl, rfl⟩ := pure_run.mp h
      exact .refl s _
  | cons e es ih =>
      unfold compExprListAssign at h
      rw [bind_run] at h
      obtain ⟨c1, s1, h1, h⟩ := h
      exact ((ih h1).plain (fun _ => rfl) rfl).trans (hrec h)

/-- Both branches of a test.  The target of the conditional jump is a label of the code
    made for the other branch, or a handler in scope. -/
theorem testCont_grown {ifso ifnot : Lambda}
    (h : testCont rec env ifso ifnot sz c s = .ok (c', s')) : Grown s c s' c' := by
  unfold testCont at h
  by_cases hu : isUnit ifnot = true
  · rw [if_pos hu, bind_run] at h
    obtain ⟨⟨l, c1⟩, s1, h1, h⟩ := h
    rw [bind_run] at h
    obtain ⟨c2, s2, h2, h⟩ := h
    obtain ⟨rfl, rfl⟩ := pure_run.mp h
    obtain ⟨hg, hl⟩ := labelCode_grown h1
    exact (hg.trans (hrec h2)).jump rfl ((hrec h2).known_after hl)
  · rw [if_neg hu, bind_run] at h
    obtain ⟨o, s1, h1, h⟩ := h
    obtain ⟨rfl, hj⟩ := codeAsJump_run h1
    cases o with
    | some l =>
        dsimp only at h
        rw [bind_run] at h
        obtain ⟨c2, s2, h2, h⟩ := h
        obtain ⟨rfl, rfl⟩ := pure_run.mp h
        obtain ⟨i, size, tb, -, ha, -⟩ := hj l rfl
        exact (hrec h2).jump rfl (.inr (.inr (.inr (mem_handlers ha))))
    | none =>
        dsimp only at h
        rw [bind_run] at h
        obtain ⟨o, s2, h2, h⟩ := h
        obtain ⟨rfl, hj⟩ := codeAsJump_run h2
        cases o with
        | some l =>
            dsimp only at h
            rw [bind_run] at h
            obtain ⟨c2, s2, h2, h⟩ := h
            obtain ⟨rfl, rfl⟩ := pure_run.mp h
            obtain ⟨i, size, tb, -, ha, -⟩ := hj l rfl
            exact (hrec h2).jump rfl (.inr (.inr (.inr (mem_handlers ha))))
        | none =>
            dsimp only at h
            rw [bind_run] at h
            obtain ⟨⟨b, c2⟩, s3, h3, h⟩ := h
            rw [bind_run] at h
            obtain ⟨c3, s4, h4, h⟩ := h
            rw [bind_run] at h
            obtain ⟨⟨l, c4⟩, s5, h5, h⟩ := h
            rw [bind_run] at h
            obtain ⟨c5, s6, h6, h⟩ := h
            obtain ⟨rfl, rfl⟩ := pure_run.mp h
            have hb := makeBranch_branched h3
            obtain ⟨hg, hl⟩ := labelCode_grown h5
            have hbr := hb.cons ((hrec h4).trans hg)
            refine (hbr.trans (hrec h6)).jump rfl ?_
            have hk : labelled c4 <:+ labelled c5 := hb.bare c4 ▸ (hrec h6).kept
            rcases hl with hl | hl
            · exact .inr (.inl (labelsOf_of_suffix hk hl))
            · exact ((hb.grown.trans (hrec h4)).known hl).mono (hg.kept.trans hk)
                (hg.functions.trans (hrec h6).functions)

/-- A call in tail position drops the code behind it; another may need a label to
    return to, which `label_code` provides. -/
theorem compApply_grown {func : Lambda} {args : List Lambda}
    (h : compApply rec env func args sz c s = .ok (c', s')) : Grown s c s' c' := by
  unfold compApply at h
  by_cases ht : isTailcall c = true
  · rw [if_pos ht, bind_run] at h
    obtain ⟨c1, s1, h1, h⟩ := h
    have h2 := ((discardDeadCode_grown s c).plain (fun _ => rfl) rfl).trans (hrec h1)
    exact (h2.plain (fun _ => rfl) rfl).trans (compArgs_grown hrec h)
  · rw [if_neg ht] at h
    by_cases hn : (args.length : Int) < 4
    · rw [if_pos hn, bind_run] at h
      obtain ⟨c1, s1, h1, h⟩ := h
      have h2 := ((Grown.refl s c).plain (fun _ => rfl) rfl).trans (hrec h1)
      exact (h2.plain (fun _ => rfl) rfl).trans (compArgs_grown hrec h)
    · rw [if_neg hn, bind_run] at h
      obtain ⟨⟨l, c1⟩, s1, h1, h⟩ := h
      rw [bind_run] at h
      obtain ⟨c2, s2, h2, h⟩ := h
      rw [bind_run] at h
      obtain ⟨c3, s3, h3, h⟩ := h
      obtain ⟨rfl, rfl⟩ := pure_run.mp h
      obtain ⟨hg, hl⟩ := labelCode_grown h1
      have hcall := ((Grown.refl s1 c1).plain (i := .Kapply args.length) (fun _ => rfl) rfl).trans
        (hrec h2)
      have hall := (hcall.plain (fun _ => rfl) rfl).trans (compArgs_grown hrec h3)
      exact (hg.trans hall).jump rfl (hall.known_after hl)

omit hrec in
theorem getMethod_bare (kind : MethKind) (met obj : Lambda) (args : List Lambda) :
    Bare (getMethod kind met obj args).1 ∧ refs (getMethod kind met obj args).1 = [] := by
  unfold getMethod
  split
  · exact ⟨fun _ => rfl, rfl⟩
  · split
    · exact ⟨fun _ => rfl, rfl⟩
    · exact ⟨fun _ => rfl, rfl⟩

/-- The same for the call of a method. -/
theorem compSend_grown {kind : MethKind} {met obj : Lambda} {args : List Lambda}
    (h : compSend rec env kind met obj args sz c s = .ok (c', s')) : Grown s c s' c' := by
  obtain ⟨hb, hr⟩ := getMethod_bare kind met obj args
  unfold compSend at h
  rw [bind_run] at h
  obtain ⟨u, s0, h0, h⟩ := h
  obtain ⟨-, rfl⟩ := assertGen_run.mp h0
  dsimp only at h
  by_cases ht : isTailcall c = true
  · rw [if_pos ht] at h
    have h2 := (discardDeadCode_grown s c).plain
      (i := .Kappterm (args.length + 1) (sz + (args.length + 1))) (fun _ => rfl) rfl
    exact (h2.plain hb hr).trans (compArgs_grown hrec h)
  · rw [if_neg ht] at h
    by_cases hn : (args.length : Int) + 1 < 4
    · rw [if_pos hn] at h
      have h2 := (Grown.refl s c).plain (i := .Kapply (args.length + 1)) (fun _ => rfl) rfl
      exact (h2.plain hb hr).trans (compArgs_grown hrec h)
    · rw [if_neg hn, bind_run] at h
      obtain ⟨⟨l, c1⟩, s1, h1, h⟩ := h
      rw [bind_run] at h
      obtain ⟨c2, s2, h2, h⟩ := h
      obtain ⟨rfl, rfl⟩ := pure_run.mp h
      obtain ⟨hg, hl⟩ := labelCode_grown h1
      have hcall := (Grown.refl s1 c1).plain (i := .Kapply (args.length + 1)) (fun _ => rfl) rfl
      have hall := (hcall.plain hb hr).trans (compArgs_grown hrec h2)
      exact (hg.trans hall).jump rfl (hall.known_after hl)

/-- The label of a closure is the entry of the function put on the list. -/
theorem compFunctionExpr_grown {params : List Ident} {body : Lambda}
    (h : compFunctionExpr rec env params body sz c s = .ok (c', s')) : Grown s c s' c' := by
  unfold compFunctionExpr at h
  rw [bind_run] at h
  obtain ⟨c0, s0, h0, h⟩ := h
  rw [bind_run] at h
  obtain ⟨l, s1, h1, h⟩ := h
  rw [bind_run] at h
  obtain ⟨u, s2, h2, h⟩ := h
  obtain rfl := modify_run.mp h2
  refine (addPseudoEvent_grown h0).trans
    (Grown.trans (Grown.jump (.entry h1 rfl c0) rfl ?_) (compArgs_grown hrec h))
  exact .inr (.inr (.inl (List.mem_cons_self ..)))

omit hrec in
/-- The labels of a `let rec` are entries of functions put on the list. -/
theorem compFun_grown {fv recIdents : List Ident} {ndecl pos : Nat} {decl : List (Ident × Lambda)}
    {lbls : List Label} (h : compFun fv recIdents ndecl pos decl s = .ok (lbls, s')) (c : Code) :
    Grown s c s' c ∧ ∀ {l}, l ∈ lbls → l ∈ pending s' := by
  induction decl generalizing pos s lbls with
  | nil =>
      obtain ⟨rfl, rfl⟩ := pure_run.mp h
      exact ⟨.refl s c, fun hl => absurd hl List.not_mem_nil⟩
  | cons d decl ih =>
      obtain ⟨id, e⟩ := d
      cases e with
      | Lfunction params body =>
          unfold compFun at h
          rw [bind_run] at h
          obtain ⟨l, s1, h1, h⟩ := h
          rw [bind_run] at h
          obtain ⟨u, s2, h2, h⟩ := h
          obtain rfl := modify_run.mp h2
          rw [bind_run] at h
          obtain ⟨ls, s3, h3, h⟩ := h
          obtain ⟨rfl, rfl⟩ := pure_run.mp h
          obtain ⟨hg, hp⟩ := ih h3
          refine ⟨Grown.trans (.entry h1 rfl c) hg, ?_⟩
          intro l' hl'
          rcases List.mem_cons.mp hl' with rfl | hl'
          · exact pending_of_suffix hg.functions (List.mem_cons_self ..)
          · exact hp hl'
      | _ => exact absurd h throw_run

/-- Functions that refer to one another, and the body that uses them. -/
theorem compLetrecFunctions_grown {decl : List (Ident × Lambda)} {body : Lambda}
    (h : compLetrecFunctions rec env decl body sz c s = .ok (c', s')) : Grown s c s' c' := by
  unfold compLetrecFunctions at h
  rw [bind_run] at h
  obtain ⟨lbls, s1, h1, h⟩ := h
  rw [bind_run] at h
  obtain ⟨c2, s2, h2, h⟩ := h
  obtain ⟨hg, hp⟩ := compFun_grown h1 c
  have hbody := (addPop_grown s1 decl.length c).trans (hrec h2)
  refine ((hg.trans hbody).cons (fun _ => rfl) ?_).trans (compArgs_grown hrec h)
  intro l hl
  exact .inr (.inr (.inl (pending_of_suffix hbody.functions (hp hl))))

omit hrec in
/-- `size_of_lambda` does not touch the state. -/
theorem declSizes_run {decl : List (Ident × Lambda)} {sizes : List (Ident × Lambda × RhsKind)}
    (h : declSizes decl s = .ok (sizes, s')) : s' = s := by
  induction decl generalizing s sizes with
  | nil => exact (pure_run.mp h).2.symm
  | cons d decl ih =>
      obtain ⟨id, e⟩ := d
      unfold declSizes at h
      rw [bind_run] at h
      obtain ⟨kind, s1, h1, h⟩ := h
      rw [bind_run] at h
      obtain ⟨rem, s2, h2, h⟩ := h
      obtain ⟨-, rfl⟩ := pure_run.mp h
      rw [ih h2]
      change ((sizeOfLambda (fun _ => none) e) >>= fun a => Except.ok (a, s)) = _ at h1
      cases hk : sizeOfLambda (fun _ => none) e with
      | error err =>
          rw [hk] at h1
          cases h1
      | ok k =>
          rw [hk] at h1
          cases h1
          rfl

/-- Definitions compiled in front of code already made. -/
theorem compRec_grown {body : Gen Code} {i : Int} {sizes : List (Ident × Lambda × RhsKind)}
    (hbody : ∀ {c'' : Code} {s'' : GenState}, body s = .ok (c'', s'') → Grown s c s'' c'')
    (h : compRec rec body env sz i sizes s = .ok (c', s')) : Grown s c s' c' := by
  induction sizes generalizing i c' s' with
  | nil => exact hbody h
  | cons d sizes ih =>
      obtain ⟨id, e, kind⟩ := d
      cases kind with
      | RHS_nonrec => exact ih h
      | _ =>
          unfold compRec at h
          rw [bind_run] at h
          obtain ⟨c1, s1, h1, h⟩ := h
          exact ((((ih h1).plain (fun _ => rfl) rfl).plain (fun _ => rfl) rfl).plain
            (fun _ => rfl) rfl).trans (hrec h)

/-- The same for those that are assigned. -/
theorem compNonrec_grown {k : Gen Code} {i : Int} {sizes : List (Ident × Lambda × RhsKind)}
    (hk : ∀ {c'' : Code} {s'' : GenState}, k s = .ok (c'', s'') → Grown s c s'' c'')
    (h : compNonrec rec k env sz i sizes s = .ok (c', s')) : Grown s c s' c' := by
  induction sizes generalizing i c' s' with
  | nil => exact hk h
  | cons d sizes ih =>
      obtain ⟨id, e, kind⟩ := d
      cases kind with
      | RHS_nonrec =>
          unfold compNonrec at h
          rw [bind_run] at h
          obtain ⟨c1, s1, h1, h⟩ := h
          exact ((ih h1).plain (fun _ => rfl) rfl).trans (hrec h)
      | _ => exact ih h

omit hrec in
theorem initCode_grown (kind : RhsKind) (h : Grown s c s' c') :
    Grown s c s' (initCode kind ++ c') := by
  cases kind with
  | RHS_nonrec => exact (h.plain (fun _ => rfl) rfl).plain (fun _ => rfl) rfl
  | RHS_block n | RHS_floatblock n =>
      exact ((h.plain (fun _ => rfl) rfl).plain (fun _ => rfl) rfl).plain (fun _ => rfl) rfl
  | RHS_infix n m | RHS_function n m =>
      exact ((((h.plain (fun _ => rfl) rfl).plain (fun _ => rfl) rfl).plain
        (fun _ => rfl) rfl).plain (fun _ => rfl) rfl).plain (fun _ => rfl) rfl

omit hrec in
/-- The dummies of a `let rec` have no labels. -/
theorem compInit_grown {k : CompilationEnv → Int → Gen Code}
    {sizes : List (Ident × Lambda × RhsKind)}
    (hk : ∀ {env : CompilationEnv} {sz : Int} {c'' : Code} {s'' : GenState},
      k env sz s = .ok (c'', s'') → Grown s c s'' c'')
    (h : compInit k env sz sizes s = .ok (c', s')) : Grown s c s' c' := by
  induction sizes generalizing env sz c' s' with
  | nil => exact hk h
  | cons d sizes ih =>
      obtain ⟨id, e, kind⟩ := d
      unfold compInit at h
      rw [bind_run] at h
      obtain ⟨c1, s1, h1, h⟩ := h
      obtain ⟨rfl, rfl⟩ := pure_run.mp h
      exact initCode_grown kind (ih h1)

/-- A `let rec` of other values: dummies, definitions and body. -/
theorem compLetrecGeneral_grown {decl : List (Ident × Lambda)} {body : Lambda}
    (h : compLetrecGeneral rec env decl body sz c s = .ok (c', s')) : Grown s c s' c' := by
  unfold compLetrecGeneral at h
  rw [bind_run] at h
  obtain ⟨sizes, s1, h1, h⟩ := h
  obtain rfl := declSizes_run h1
  refine compInit_grown ?_ h
  intro env sz c2 s2 h2
  refine compNonrec_grown hrec ?_ h2
  intro c3 s3 h3
  refine compRec_grown hrec ?_ h3
  intro c4 s4 h4
  exact (addPop_grown s1 _ c).trans (hrec h4)

omit hrec in
theorem primitiveInstr_bare {p : Primitive} {args : List Lambda} {i : Instruction}
    (h : primitiveInstr p args = some i) : Bare i ∧ refs i = [] := by
  unfold primitiveInstr at h
  split at h
  all_goals cases h
  all_goals exact ⟨fun _ => rfl, rfl⟩

omit hrec in
/-- `comp_primitive` notes the stack use and looks the instruction up. -/
theorem compPrimitive_run {p : Primitive} {n : Int} {args : List Lambda} {i : Instruction}
    (h : compPrimitive p n args s = .ok (i, s')) :
    primitiveInstr p args = some i ∧ Noted s s' := by
  unfold compPrimitive at h
  rw [bind_run] at h
  obtain ⟨u, s1, h1, h⟩ := h
  have hn1 := checkStack_run h1
  cases hp : primitiveInstr p args with
  | none =>
      rw [hp] at h
      exact absurd h throw_run
  | some j =>
      rw [hp] at h
      dsimp only at h
      by_cases hq : p = .Pperform
      · rw [if_pos hq, bind_run] at h
        obtain ⟨u, s2, h2, h⟩ := h
        have hn2 := checkStack_run h2
        obtain ⟨rfl, rfl⟩ := pure_run.mp h
        exact ⟨rfl, hn1.trans hn2⟩
      · rw [if_neg hq] at h
        obtain ⟨rfl, rfl⟩ := pure_run.mp h
        exact ⟨rfl, hn1⟩

theorem compPlainPrim_grown {p : Primitive} {args : List Lambda}
    (h : compPlainPrim rec env p args sz c s = .ok (c', s')) : Grown s c s' c' := by
  unfold compPlainPrim at h
  rw [bind_run] at h
  obtain ⟨i, s1, h1, h⟩ := h
  obtain ⟨hi, hn⟩ := compPrimitive_run h1
  obtain ⟨hb, hr⟩ := primitiveInstr_bare hi
  exact (((Grown.refl s c).noted hn).plain hb hr).trans (compArgs_grown hrec h)

/-- The elements of an array, in front of the instructions that make it. -/
theorem compMakearray_grown {kind : ArrayKind} {args : List Lambda}
    (h : compMakearray rec env kind args sz c s = .ok (c', s')) : Grown s c s' c' := by
  unfold compMakearray at h
  rw [bind_run] at h
  obtain ⟨c0, s0, h0, h⟩ := h
  refine (addPseudoEvent_grown h0).trans ?_
  cases kind with
  | Pgenarray =>
      dsimp only at h
      by_cases he : args.isEmpty = true
      · rw [if_pos he] at h
        obtain ⟨rfl, rfl⟩ := pure_run.mp h
        exact (Grown.refl s0 c0).plain (fun _ => rfl) rfl
      · rw [if_neg he] at h
        exact (((Grown.refl s0 c0).plain (fun _ => rfl) rfl).plain (fun _ => rfl) rfl).trans
          (compArgs_grown hrec h)
  | _ => exact ((Grown.refl s0 c0).plain (fun _ => rfl) rfl).trans (compArgs_grown hrec h)

/-- `&&` takes over the branch that follows it, or makes a label behind it. -/
theorem compSequand_grown {exp1 exp2 : Lambda}
    (h : compSequand rec env exp1 exp2 sz c s = .ok (c', s')) : Grown s c s' c' := by
  unfold compSequand at h
  split at h
  · next l c =>
      rw [bind_run] at h
      obtain ⟨c1, s1, h1, h⟩ := h
      exact ((hrec h1).jump rfl (.inl (List.mem_append_left _ (List.mem_singleton_self l)))).trans
        (hrec h)
  · next l c =>
      rw [bind_run] at h
      obtain ⟨⟨l2, c1⟩, s1, h1, h⟩ := h
      rw [bind_run] at h
      obtain ⟨c2, s2, h2, h⟩ := h
      obtain ⟨hg, hl⟩ := labelCode_grown h1
      have hb : Grown s (.Kbranchif l :: c) s1 (.Kbranchif l :: c1) := hg.under fun _ => rfl
      refine ((hb.trans (hrec h2)).jump rfl ?_).trans (hrec h)
      rcases hl with hl | hl
      · exact .inr (.inl (labelsOf_of_suffix (hrec h2).kept hl))
      · exact .inl (List.mem_append_right _ hl)
  · rw [bind_run] at h
    obtain ⟨⟨l, c1⟩, s1, h1, h⟩ := h
    rw [bind_run] at h
    obtain ⟨c2, s2, h2, h⟩ := h
    obtain ⟨hg, hl⟩ := labelCode_grown h1
    exact ((hg.trans (hrec h2)).jump rfl ((hrec h2).known_after hl)).trans (hrec h)

/-- `||` takes over the branch that follows it, or makes a label behind it. -/
theorem compSequor_grown {exp1 exp2 : Lambda}
    (h : compSequor rec env exp1 exp2 sz c s = .ok (c', s')) : Grown s c s' c' := by
  unfold compSequor at h
  split at h
  · next l c =>
      rw [bind_run] at h
      obtain ⟨c1, s1, h1, h⟩ := h
      exact ((hrec h1).jump rfl (.inl (List.mem_append_left _ (List.mem_singleton_self l)))).trans
        (hrec h)
  · next l c =>
      rw [bind_run] at h
      obtain ⟨⟨l2, c1⟩, s1, h1, h⟩ := h
      rw [bind_run] at h
      obtain ⟨c2, s2, h2, h⟩ := h
      obtain ⟨hg, hl⟩ := labelCode_grown h1
      have hb : Grown s (.Kbranchifnot l :: c) s1 (.Kbranchifnot l :: c1) := hg.under fun _ => rfl
      refine ((hb.trans (hrec h2)).jump rfl ?_).trans (hrec h)
      rcases hl with hl | hl
      · exact .inr (.inl (labelsOf_of_suffix (hrec h2).kept hl))
      · exact .inl (List.mem_append_right _ hl)
  · rw [bind_run] at h
    obtain ⟨⟨l, c1⟩, s1, h1, h⟩ := h
    rw [bind_run] at h
    obtain ⟨c2, s2, h2, h⟩ := h
    obtain ⟨hg, hl⟩ := labelCode_grown h1
    exact ((hg.trans (hrec h2)).jump rfl ((hrec h2).known_after hl)).trans (hrec h)

/-- Resumption in tail position drops the code behind it. -/
theorem compResume_grown {args : List Lambda}
    (h : compResume rec env args sz c s = .ok (c', s')) : Grown s c s' c' := by
  unfold compResume at h
  rw [bind_run] at h
  obtain ⟨u, s1, h1, h⟩ := h
  obtain ⟨-, rfl⟩ := assertGen_run.mp h1
  rw [bind_run] at h
  obtain ⟨u, s2, h2, h⟩ := h
  have hk := checkStack_run h2
  by_cases ht : isTailcall c = true
  · rw [if_pos ht] at h
    exact (((discardDeadCode_grown s c).noted hk).plain (fun _ => rfl) rfl).trans
      (compArgs_grown hrec h)
  · rw [if_neg ht] at h
    exact (((Grown.refl s c).noted hk).plain (fun _ => rfl) rfl).trans (compArgs_grown hrec h)

/-- A reperform is always in tail position. -/
theorem compReperform_grown {args : List Lambda}
    (h : compReperform rec env args sz c s = .ok (c', s')) : Grown s c s' c' := by
  unfold compReperform at h
  rw [bind_run] at h
  obtain ⟨u, s1, h1, h⟩ := h
  obtain ⟨-, rfl⟩ := assertGen_run.mp h1
  rw [bind_run] at h
  obtain ⟨u, s2, h2, h⟩ := h
  have hk := checkStack_run h2
  by_cases ht : isTailcall c = true
  · rw [if_pos ht] at h
    exact (((discardDeadCode_grown s c).noted hk).plain (fun _ => rfl) rfl).trans
      (compArgs_grown hrec h)
  · rw [if_neg ht] at h
    exact absurd h throw_run

/-- All primitives, case by case of `comp_expr`. -/
theorem compPrim_grown {p : Primitive} {args : List Lambda} {loc : ScopedLocation}
    (h : compPrim rec env p args loc sz c s = .ok (c', s')) : Grown s c s' c' := by
  unfold compPrim at h
  split at h
  · exact hrec h
  · exact (addConstUnit_grown s c).trans (hrec h)
  · exact (notCont_grown s c).trans (hrec h)
  · exact compSequand_grown hrec h
  · exact compSequor_grown hrec h
  · exact ((discardDeadCode_grown s c).plain (fun _ => rfl) rfl).trans (hrec h)
  · split at h
    · exact ((Grown.refl s c).plain (fun _ => rfl) rfl).trans (hrec h)
    · exact compPlainPrim_grown hrec h
  · split at h
    · exact ((Grown.refl s c).plain (fun _ => rfl) rfl).trans (hrec h)
    · exact compPlainPrim_grown hrec h
  · split at h
    · exact compPlainPrim_grown hrec h
    · exact ((((Grown.refl s c).plain (fun _ => rfl) rfl).plain (fun _ => rfl) rfl).plain
        (fun _ => rfl) rfl).trans (hrec h)
  · exact compMakearray_grown hrec h
  · exact compResume_grown hrec h
  · exact compResume_grown hrec h
  · exact compReperform_grown hrec h
  · rw [bind_run] at h
    obtain ⟨u, s1, h1, h⟩ := h
    obtain ⟨-, rfl⟩ := assertGen_run.mp h1
    exact hrec h
  · exact hrec h
  · exact absurd h throw_run
  · exact compPlainPrim_grown hrec h
  · exact (floatcompCont_grown s _ c).trans (compArgs_grown hrec h)
  · obtain ⟨c0, s0, h0, h⟩ := bind_run.mp h
    exact ((addPseudoEvent_grown h0).plain (fun _ => rfl) rfl).trans (compArgs_grown hrec h)
  · obtain ⟨c0, s0, h0, h⟩ := bind_run.mp h
    exact ((addPseudoEvent_grown h0).plain (fun _ => rfl) rfl).trans (compArgs_grown hrec h)
  · exact compPlainPrim_grown hrec h

omit hrec in
/-- A handler's label may be used behind a branch. -/
theorem behind_branch {i : Instruction} {l : Label} (hb : Bare i)
    (hl : l ∈ labelsOf c' ∨ l ∈ refsOf c ∧ l ∈ refsOf c') :
    l ∈ labelsOf (i :: c') ∨ l ∈ refsOf (i :: c') := by
  rcases hl with hl | ⟨-, hl⟩
  · rw [labelsOf, hb]
    exact .inl hl
  · exact .inr (List.mem_append_right _ hl)

/-- The body of a `Lstaticcatch` is generated with its handler pushed. -/
theorem catchCode_pushed {body handler : Lambda} {i : Int} {vars : List Ident}
    (h : catchCode rec env body i vars handler sz c s = .ok (c', s')) :
    Grown s c { s' with szStaticRaises := s'.szStaticRaises.tail } c' := by
  unfold catchCode at h
  rw [bind_run] at h
  obtain ⟨⟨b, c1⟩, s1, h1, h⟩ := h
  have hb := makeBranch_branched h1
  dsimp only at h
  split at h
  · next var =>
      rw [bind_run] at h
      obtain ⟨c2, s2, h2, h⟩ := h
      rw [bind_run] at h
      obtain ⟨⟨l, c3⟩, s3, h3, h⟩ := h
      rw [bind_run] at h
      obtain ⟨u, s4, h4, h⟩ := h
      obtain rfl := modify_run.mp h4
      have hh := ((addPop_grown s1 1 c1).trans (hrec h2)).plain (i := .Kpush) (fun _ => rfl) rfl
      obtain ⟨hg, hl⟩ := labelCode_placed h3
      exact (hb.cons (hh.trans hg)).trans ((hrec h).catch (behind_branch hb.bare hl))
  · rw [bind_run] at h
    obtain ⟨c2, s2, h2, h⟩ := h
    rw [bind_run] at h
    obtain ⟨⟨l, c3⟩, s3, h3, h⟩ := h
    rw [bind_run] at h
    obtain ⟨u, s4, h4, h⟩ := h
    obtain rfl := modify_run.mp h4
    rw [bind_run] at h
    obtain ⟨c5, s5, h5, h⟩ := h
    obtain ⟨rfl, rfl⟩ := pure_run.mp h
    have hh := (addPop_grown s1 vars.length c1).trans (hrec h2)
    obtain ⟨hg, hl⟩ := labelCode_placed h3
    have hbr := hb.cons (hh.trans hg)
    have hbody := ((addPop_grown _ vars.length _).trans (hrec h5)).trans
      (pushDummies_grown _ vars.length c5)
    exact hbr.trans (hbody.catch (behind_branch hb.bare hl))

theorem compStaticcatch_grown {body handler : Lambda} {i : Int} {vars : List Ident}
    (h : compStaticcatch rec env body i vars handler sz c s = .ok (c', s')) :
    Grown s c s' c' := by
  unfold compStaticcatch at h
  rw [bind_run] at h
  obtain ⟨c1, s1, h1, h⟩ := h
  rw [bind_run] at h
  obtain ⟨u, s2, h2, h⟩ := h
  obtain rfl := modify_run.mp h2
  obtain ⟨rfl, rfl⟩ := pure_run.mp h
  exact catchCode_pushed hrec h1

/-- The jump of an exit goes to a handler in scope. -/
theorem compStaticraise_grown {i : Int} {args : List Lambda}
    (h : compStaticraise rec env i args sz c s = .ok (c', s')) : Grown s c s' c' := by
  unfold compStaticraise at h
  rw [bind_run] at h
  obtain ⟨⟨l, size, tb⟩, s1, h1, h⟩ := h
  obtain ⟨ha, rfl⟩ := findRaiseLabel_run h1
  rw [bind_run] at h
  obtain ⟨t, s2, h2, h⟩ := h
  obtain ⟨rfl, rfl⟩ := get_run.mp h2
  rw [bind_run] at h
  obtain ⟨c3, s3, h3, h⟩ := h
  obtain ⟨rfl, hg⟩ := leaveTries_run h3
  have hj := ((discardDeadCode_grown s3 c).trans (branchTo_grown (mem_handlers ha) _)).trans hg
  split at h
  · exact hj.trans (hrec h)
  · exact hj.trans (compExprListAssign_grown hrec h)

/-- The handler of a `try` is placed behind its body. -/
theorem compTrywith_grown {body handler : Lambda} {id : Ident}
    (h : compTrywith rec env body id handler sz c s = .ok (c', s')) : Grown s c s' c' := by
  unfold compTrywith at h
  rw [bind_run] at h
  obtain ⟨⟨b, c1⟩, s1, h1, h⟩ := h
  have hb := makeBranch_branched h1
  rw [bind_run] at h
  obtain ⟨l, s2, h2, h⟩ := h
  rw [bind_run] at h
  obtain ⟨c3, s3, h3, h⟩ := h
  rw [bind_run] at h
  obtain ⟨u, s4, h4, h⟩ := h
  obtain rfl := modify_run.mp h4
  rw [bind_run] at h
  obtain ⟨c5, s5, h5, h⟩ := h
  rw [bind_run] at h
  obtain ⟨u, s6, h6, h⟩ := h
  obtain rfl := modify_run.mp h6
  obtain ⟨rfl, rfl⟩ := pure_run.mp h
  have hh := ((addPop_grown s2 1 c1).trans (hrec h3)).plain (i := .Kpush) (fun _ => rfl) rfl
  have hbody := (hb.cons (hh.place h2)).plain (i := .Kpoptrap) (fun _ => rfl) rfl
  refine (hbody.trans (hrec h5).try).jump rfl ?_
  refine .inr (.inl (labelsOf_of_suffix (hrec h5).kept ?_))
  rw [labelsOf]
  show l ∈ (labelled (b :: .Klabel l :: .Kpush :: c3)).map Prod.fst
  rw [hb.bare]
  exact List.mem_cons_self ..

/-- The two labels of a loop: where its body starts, and its test. -/
theorem compWhile_grown {cond body : Lambda}
    (h : compWhile rec env cond body sz c s = .ok (c', s')) : Grown s c s' c' := by
  unfold compWhile at h
  rw [bind_run] at h
  obtain ⟨lblLoop, s1, h1, h⟩ := h
  rw [bind_run] at h
  obtain ⟨lblTest, s2, h2, h⟩ := h
  rw [bind_run] at h
  obtain ⟨test, s3, h3, h⟩ := h
  rw [bind_run] at h
  obtain ⟨c4, s4, h4, h⟩ := h
  obtain ⟨rfl, rfl⟩ := pure_run.mp h
  have htest := Grown.place h2 (hrec h3)
  have hbody := (htest.trans (hrec h4)).plain (i := .Kcheck_signals) (fun _ => rfl) rfl
  have hloop := (hbody.place h1).unref (i := .Kbranchif lblLoop) (fun _ => rfl) ?_
  · refine ((addConstUnit_grown s c).trans hloop).jump rfl ?_
    refine .inr (.inl (List.mem_cons_of_mem _ ?_))
    exact labelsOf_of_suffix (hrec h4).kept (List.mem_cons_self ..)
  · intro l hl
    rw [List.mem_singleton.mp hl]
    exact List.mem_cons_self ..

/-- The two labels of a loop: where its body starts, and where it is left. -/
theorem compFor_grown {param : Ident} {start stop body : Lambda} {dir : DirectionFlag}
    (h : compFor rec env param start stop dir body sz c s = .ok (c', s')) : Grown s c s' c' := by
  unfold compFor at h
  rw [bind_run] at h
  obtain ⟨lblLoop, s1, h1, h⟩ := h
  rw [bind_run] at h
  obtain ⟨lblExit, s2, h2, h⟩ := h
  rw [bind_run] at h
  obtain ⟨loop, s3, h3, h⟩ := h
  rw [bind_run] at h
  obtain ⟨c4, s4, h4, h⟩ := h
  have hexit := ((addPop_grown s1 2 c).trans (addConstUnit_grown s1 _)).trans (.newLabel h2 _)
  have hnext := ((((hexit.under (i := .Kbranchif lblLoop) fun _ => rfl).plain
    (i := .Kintcomp .Cne) (fun _ => rfl) rfl).plain (i := .Kacc 1) (fun _ => rfl) rfl).plain
    (i := .Kassign 2) (fun _ => rfl) rfl)
  have hinc := ((hnext.plain (i := .Koffsetint (forOffset dir))
    (fun _ => rfl) rfl).plain (i := .Kpush) (fun _ => rfl) rfl).plain
    (i := .Kacc 1) (fun _ => rfl) rfl
  have hloop := ((hinc.trans (hrec h3)).plain (i := .Kcheck_signals) (fun _ => rfl) rfl).place h1
  have hexits : lblExit ∈ labelsOf (.Klabel lblLoop :: .Kcheck_signals :: loop) :=
    List.mem_cons_of_mem _ (labelsOf_of_suffix (hrec h3).kept (List.mem_cons_self ..))
  have htest := ((hloop.jump (i := .Kbranchif lblExit) rfl (.inr (.inl hexits))).plain
    (i := .Kintcomp (forExit dir)) (fun _ => rfl) rfl).plain (i := .Kacc 2) (fun _ => rfl) rfl
  have hstop := ((htest.plain (i := .Kpush) (fun _ => rfl) rfl).plain
    (i := .Kpush) (fun _ => rfl) rfl).trans (hrec h4)
  have hstart := (hstop.plain (i := .Kpush) (fun _ => rfl) rfl).trans (hrec h)
  refine hstart.unref (fun _ => rfl) ?_
  intro l hl
  rw [List.mem_singleton.mp hl]
  have hk := (hrec h4).kept.trans (hrec h).kept
  exact labelsOf_of_suffix hk (List.mem_cons_self ..)

/-- The labels of the actions of a switch are known: `label_code` placed each, or
    found it at the end of a branch. -/
theorem compActions_grown {b : Instruction} (hb : Bare b) {acts : List Lambda}
    (h0 : Grown s c s1 c1) (hr : ∀ {l}, l ∈ refs b → l ∈ labelsOf c1 ∨ l ∈ refsOf c)
    {lbls : List Label} (h : compActions rec env sz b acts c1 s1 = .ok ((lbls, c'), s')) :
    Grown s c s' c' ∧ labelled c1 <:+ labelled c' ∧ ∀ {l}, l ∈ lbls → Known s c s' c' l := by
  induction acts generalizing lbls c' s' with
  | nil =>
      obtain ⟨heq, rfl⟩ := pure_run.mp h
      obtain ⟨rfl, rfl⟩ := Prod.mk.inj heq
      exact ⟨h0, List.suffix_rfl, fun hl => absurd hl List.not_mem_nil⟩
  | cons act acts ih =>
      unfold compActions at h
      rw [bind_run] at h
      obtain ⟨⟨ls, c2⟩, s2, h1, h⟩ := h
      rw [bind_run] at h
      obtain ⟨c3, s3, h2, h⟩ := h
      rw [bind_run] at h
      obtain ⟨⟨l, c4⟩, s4, h3, h⟩ := h
      obtain ⟨heq, rfl⟩ := pure_run.mp h
      obtain ⟨rfl, rfl⟩ := Prod.mk.inj heq
      obtain ⟨hg, hsuf, hls⟩ := ih h1
      obtain ⟨hl, hlk⟩ := labelCode_grown h3
      have hbr : Grown s c s2 (b :: c2) := by
        refine hg.cons hb ?_
        intro l' hl'
        rcases hr hl' with h4 | h4
        · exact .inr (.inl (labelsOf_of_suffix hsuf h4))
        · exact .inl h4
      have hact := hbr.trans (hrec h2)
      have hd := (discardDeadCode_grown s4 c4).kept
      have hk := (hrec h2).kept
      rw [hb] at hk
      refine ⟨(hact.trans hl).trans (discardDeadCode_grown s4 c4),
        ((hsuf.trans hk).trans hl.kept).trans hd, ?_⟩
      intro l' hl'
      rcases List.mem_cons.mp hl' with rfl | hl'
      · rcases hlk with h4 | h4
        · exact .inr (.inl (labelsOf_of_suffix hd h4))
        · exact (hact.known h4).mono (hl.kept.trans hd) hl.functions
      · exact (hls hl').mono ((hk.trans hl.kept).trans hd)
          ((hrec h2).functions.trans hl.functions)

omit hrec in
theorem actStore_run {st : ActStore} {act : Lambda} {r : Nat × ActStore}
    (h : actStore st act s = .ok (r, s')) : s' = s := by
  revert h
  fun_cases actStore st act with
  | case4 => exact fun h => absurd h throw_run
  | _ => exact fun h => (pure_run.mp h).2.symm

omit hrec in
theorem storeDefault_run {failaction : Option Lambda} {st : ActStore}
    (h : storeDefault failaction s = .ok (st, s')) : s' = s := by
  unfold storeDefault at h
  split at h
  · rw [bind_run] at h
    obtain ⟨r, s1, h1, h⟩ := h
    obtain ⟨-, rfl⟩ := pure_run.mp h
    exact actStore_run h1
  · exact (pure_run.mp h).2.symm

omit hrec in
/-- To store actions does not touch the state. -/
theorem storeCases_run {cases' : List (Nat × Lambda)} {idx idx' : List Nat} {st st' : ActStore}
    (h : storeCases cases' idx st s = .ok ((idx', st'), s')) : s' = s := by
  induction cases' generalizing idx st s with
  | nil => exact (pure_run.mp h).2.symm
  | cons d rem ih =>
      obtain ⟨n, act⟩ := d
      unfold storeCases at h
      rw [bind_run] at h
      obtain ⟨⟨i, st1⟩, s1, h1, h⟩ := h
      obtain rfl := actStore_run h1
      dsimp only at h
      by_cases hn : n < idx.length
      · rw [if_pos hn] at h
        exact ih h
      · rw [if_neg hn] at h
        exact absurd h throw_run

omit hrec in
/-- The labels of a jump table are labels of actions. -/
theorem labelVector_run {lbls ls : List Label} {idx : List Nat}
    (h : labelVector lbls idx s = .ok (ls, s')) : s' = s ∧ ∀ {l}, l ∈ ls → l ∈ lbls := by
  induction idx generalizing ls s' with
  | nil =>
      obtain ⟨rfl, rfl⟩ := pure_run.mp h
      exact ⟨rfl, fun hl => absurd hl List.not_mem_nil⟩
  | cons i idx ih =>
      unfold labelVector at h
      rw [bind_run] at h
      obtain ⟨rem, s1, h1, h⟩ := h
      obtain ⟨rfl, hrem⟩ := ih h1
      cases hi : lbls[i]? with
      | none =>
          rw [hi] at h
          exact absurd h throw_run
      | some l =>
          rw [hi] at h
          obtain ⟨rfl, rfl⟩ := pure_run.mp h
          refine ⟨rfl, ?_⟩
          intro l' hl'
          rcases List.mem_cons.mp hl' with rfl | hl'
          · exact List.mem_of_getElem? hi
          · exact hrem hl'

/-- The labels of both jump tables are those of the actions, which stand behind the
    switch. -/
theorem compSwitch_grown {arg : Lambda} {numconsts numblocks : Nat}
    {consts blocks : List (Nat × Lambda)} {failaction : Option Lambda}
    (h : compSwitch rec env arg numconsts consts numblocks blocks failaction sz c s
      = .ok (c', s')) : Grown s c s' c' := by
  unfold compSwitch at h
  rw [bind_run] at h
  obtain ⟨⟨b, c1⟩, s1, h1, h⟩ := h
  have hb := makeBranch_branched h1
  dsimp only at h
  rw [bind_run] at h
  obtain ⟨st0, s0, h0, h⟩ := h
  obtain rfl := storeDefault_run h0
  rw [bind_run] at h
  obtain ⟨⟨ac, st1⟩, s2, h2, h⟩ := h
  rw [bind_run] at h
  obtain ⟨⟨ab, st2⟩, s3, h3, h⟩ := h
  rw [bind_run] at h
  obtain ⟨⟨lbls, c4⟩, s4, h4, h⟩ := h
  rw [bind_run] at h
  obtain ⟨lb, s5, h5, h⟩ := h
  rw [bind_run] at h
  obtain ⟨lc, s6, h6, h⟩ := h
  obtain rfl := storeCases_run h2
  obtain rfl := storeCases_run h3
  obtain ⟨rfl, hlb⟩ := labelVector_run h5
  obtain ⟨rfl, hlc⟩ := labelVector_run h6
  have hd := hb.grown.trans (discardDeadCode_grown s3 c1)
  obtain ⟨hg, -, hls⟩ := compActions_grown hrec hb.bare hd
    (fun hl => (hb.known hl).imp_left (labelsOf_of_suffix (discardDeadCode_grown s3 c1).kept)) h4
  refine (hg.cons (fun _ => rfl) ?_).trans (hrec h)
  intro l hl
  rcases List.mem_append.mp hl with hl | hl
  · exact hls (hlc hl)
  · exact hls (hlb hl)

omit hrec in
/-- Variables are accessed by one instruction. -/
theorem compVar_grown {id : Ident} (h : compVar env id sz c s = .ok (c', s')) :
    Grown s c s' c' := by
  unfold compVar at h
  cases h1 : env.ceStack id with
  | some pos =>
      rw [h1] at h
      obtain ⟨rfl, rfl⟩ := pure_run.mp h
      exact (Grown.refl s c).plain (fun _ => rfl) rfl
  | none =>
      rw [h1] at h
      dsimp only at h
      cases h2 : env.ceHeap id with
      | some pos =>
          rw [h2] at h
          obtain ⟨rfl, rfl⟩ := pure_run.mp h
          exact (Grown.refl s c).plain (fun _ => rfl) rfl
      | none =>
          rw [h2] at h
          dsimp only at h
          cases h3 : env.ceRec id with
          | some ofs =>
              rw [h3] at h
              obtain ⟨rfl, rfl⟩ := pure_run.mp h
              exact (Grown.refl s c).plain (fun _ => rfl) rfl
          | none =>
              rw [h3] at h
              exact absurd h throw_run

theorem compAssign_grown {id : Ident} {e : Lambda}
    (h : compAssign rec env id e sz c s = .ok (c', s')) : Grown s c s' c' := by
  unfold compAssign at h
  cases h1 : env.ceStack id with
  | some pos =>
      rw [h1] at h
      exact ((Grown.refl s c).plain (fun _ => rfl) rfl).trans (hrec h)
  | none =>
      rw [h1] at h
      exact absurd h throw_run

theorem compLet_grown {id : Ident} {arg body : Lambda}
    (h : compLet rec env id arg body sz c s = .ok (c', s')) : Grown s c s' c' := by
  unfold compLet at h
  rw [bind_run] at h
  obtain ⟨c1, s1, h1, h⟩ := h
  exact (((addPop_grown s 1 c).trans (hrec h1)).plain (fun _ => rfl) rfl).trans (hrec h)

/-- An event is put in front of the code of its term, or behind it. -/
theorem compEvent_grown {lam : Lambda} {kind : LambdaEventKind} {repr : Option EventRef}
    (h : compEvent rec env lam kind repr sz c s = .ok (c', s')) : Grown s c s' c' := by
  cases kind with
  | Lev_after =>
      simp only [compEvent] at h
      split at h
      · exact hrec h
      · obtain ⟨c1, s1, h1, h⟩ := bind_run.mp h
        exact (addEvent_grown h1).trans (hrec h)
  | Lev_module_definition => exact hrec h
  | _ =>
      obtain ⟨c1, s1, h1, h⟩ := bind_run.mp h
      exact (hrec h1).trans (addEvent_grown h)

omit hrec in
/-- An expansion changes no more than the counters of other modules. -/
theorem expandSwitch_run {loc : ScopedLocation} {arg e : Lambda} {sw : List (String × Lambda)}
    {d : Option Lambda} (h : expandSwitch loc arg sw d s = .ok (e, s')) : Noted s s' := by
  unfold expandSwitch at h
  rw [bind_run] at h
  obtain ⟨t, s1, h1, h⟩ := h
  obtain ⟨rfl, rfl⟩ := get_run.mp h1
  cases he : expandStringswitch loc arg sw d s.counters with
  | some r =>
      rw [he, bind_run] at h
      obtain ⟨u, s2, h2, h⟩ := h
      obtain rfl := modify_run.mp h2
      obtain ⟨-, rfl⟩ := pure_run.mp h
      exact ⟨rfl, rfl, rfl, rfl⟩
  | none =>
      rw [he] at h
      exact absurd h throw_run

/-- Every case of `comp_expr` keeps labels, if the calls on subterms do. -/
theorem compExprStep_grown : Keeps (compExprStep rec) := by
  intro env e sz c c' s s' h
  unfold compExprStep at h
  rw [bind_run] at h
  obtain ⟨u, s1, h1, h⟩ := h
  have hk := checkStack_run h1
  refine ((Grown.refl s c).noted hk).trans ?_
  cases e with
  | Lvar id => exact compVar_grown h
  | Lmutvar id => exact compVar_grown h
  | Lconst cst =>
      obtain ⟨rfl, rfl⟩ := pure_run.mp h
      exact (Grown.refl _ c).plain (fun _ => rfl) rfl
  | Lapply func args loc attrs => exact compApply_grown hrec h
  | Lsend kind met obj args loc => exact compSend_grown hrec h
  | Lfunction params body => exact compFunctionExpr_grown hrec h
  | Llet str kind id arg body => exact compLet_grown hrec h
  | Lmutlet kind id arg body => exact compLet_grown hrec h
  | Lletrec decl body =>
      dsimp only at h
      split at h
      · exact compLetrecFunctions_grown hrec h
      · exact compLetrecGeneral_grown hrec h
  | Lprim p args loc => exact compPrim_grown hrec h
  | Lstaticcatch body i vars handler => exact compStaticcatch_grown hrec h
  | Lstaticraise i args => exact compStaticraise_grown hrec h
  | Ltrywith body id handler => exact compTrywith_grown hrec h
  | Lifthenelse cond ifso ifnot =>
      obtain ⟨c1, s2, h2, h⟩ := bind_run.mp h
      exact (testCont_grown hrec h2).trans (hrec h)
  | Lsequence e1 e2 =>
      obtain ⟨c1, s2, h2, h⟩ := bind_run.mp h
      exact (hrec h2).trans (hrec h)
  | Lwhile cond body => exact compWhile_grown hrec h
  | Lfor param start stop dir body => exact compFor_grown hrec h
  | Lswitch arg numconsts consts numblocks blocks failaction loc => exact compSwitch_grown hrec h
  | Lstringswitch arg strings default loc =>
      obtain ⟨e, s2, h2, h⟩ := bind_run.mp h
      exact ((Grown.refl _ c).noted (expandSwitch_run h2)).trans (hrec h)
  | Levent lam kind repr => exact compEvent_grown hrec h
  | Lassign id e => exact compAssign_grown hrec h
  | Lifused id e => exact hrec h

end

/-- `comp_expr` keeps labels. -/
theorem compExpr_grown (n : Nat) : Keeps (compExpr n) := by
  induction n with
  | zero =>
      intro env e sz c c' s s' h
      exact absurd h throw_run
  | succ n ih => exact compExprStep_grown ih

/-! ## Compilation units -/

/-- The check of the stack in front of a block has no labels. -/
theorem compBlock_grown {n : Nat} {env : CompilationEnv} {e : Lambda} {sz : Int}
    (h : compBlock n env e sz c s = .ok (c', s')) : Grown s c s' c' := by
  unfold compBlock at h
  rw [bind_run] at h
  obtain ⟨u, s1, h1, h⟩ := h
  obtain rfl := modify_run.mp h1
  rw [bind_run] at h
  obtain ⟨code, s2, h2, h⟩ := h
  rw [bind_run] at h
  obtain ⟨t, s3, h3, h⟩ := h
  obtain ⟨rfl, rfl⟩ := get_run.mp h3
  have hn : Noted s { s with maxStackUsed := 0 } := ⟨rfl, rfl, rfl, rfl⟩
  have hg := ((Grown.refl s c).noted hn).trans (compExpr_grown n h2)
  split at h
  · obtain ⟨rfl, rfl⟩ := pure_run.mp h
    exact (hg.plain (fun _ => rfl) rfl).plain (fun _ => rfl) rfl
  · obtain ⟨rfl, rfl⟩ := pure_run.mp h
    exact hg

/-- Between two functions of a unit, with the code `d` elsewhere: labels in use are
    distinct, and a label the code refers to is placed or is the entry of a function
    still to come. -/
structure Settling (d : Code) (s : GenState) (c : Code) : Prop where
  raises : s.szStaticRaises = []
  distinct : Distinct (labelsOf d) s c
  known : ∀ {l}, l ∈ refsOf d ∨ l ∈ refsOf c → l ∈ labelsOf d ∨ l ∈ labelsOf c ∨ l ∈ pending s

variable {d : Code}

/-- One call between two functions keeps the unit settled. -/
theorem Grown.settling (hg : Grown s c s' c') (h : Settling d s c) : Settling d s' c' where
  raises := hg.raises.trans h.raises
  distinct := hg.distinct h.distinct
  known := by
    have hold : ∀ {l}, l ∈ refsOf d ∨ l ∈ refsOf c →
        l ∈ labelsOf d ∨ l ∈ labelsOf c' ∨ l ∈ pending s' := by
      intro l hl
      rcases h.known hl with h2 | h2 | h2
      · exact .inl h2
      · exact .inr (.inl (labelsOf_of_suffix hg.kept h2))
      · exact .inr (.inr (pending_of_suffix hg.functions h2))
    rintro l (hl | hl)
    · exact hold (.inl hl)
    · rcases hg.known hl with h1 | h1 | h1 | h1
      · exact hold (.inr h1)
      · exact .inr (.inl h1)
      · exact .inr (.inr h1)
      · rw [handlers, h.raises] at h1
        exact absurd h1 List.not_mem_nil

/-- A function taken from the list has its entry reserved until its code stands. -/
theorem Settling.pop {tc : FunctionToCompile} {rem : List FunctionToCompile}
    (h : Settling d s c) (hf : s.functionsToCompile = tc :: rem) :
    Distinct (tc.label :: labelsOf d) { s with functionsToCompile := rem } c := by
  have hp : (labelsOf d ++ labelsOf c ++ pending s).Perm
      (tc.label :: labelsOf d ++ labelsOf c ++ pending { s with functionsToCompile := rem }) := by
    rw [pending, hf]
    exact List.perm_middle
  exact ⟨hp.nodup_iff.mp h.distinct.nodup, fun hm => h.distinct.bound (hp.mem_iff.mpr hm)⟩

/-- The entry of a function, reserved while it was on the list, is placed in front of
    its body. -/
theorem compFunction_settling {n : Nat} {tc : FunctionToCompile} {rem : List FunctionToCompile}
    (hs : Settling d s c) (hf : s.functionsToCompile = tc :: rem)
    (h : compFunction n tc c { s with functionsToCompile := rem } = .ok (c', s')) :
    Settling d s' c' ∧ labelled c <:+ labelled c' := by
  unfold compFunction at h
  rw [bind_run] at h
  obtain ⟨body, s1, h1, h⟩ := h
  have hg := ((Grown.refl _ c).plain (fun _ => rfl) rfl).trans (compBlock_grown h1)
  have hplaced : Settling d s1 (.Klabel tc.label :: body) := by
    refine ⟨hg.raises.trans hs.raises, (hg.distinct (hs.pop hf)).place, ?_⟩
    have hentry : ∀ {l}, l ∈ pending s →
        l ∈ labelsOf (.Klabel tc.label :: body) ∨ l ∈ pending s1 := by
      intro l hm
      rw [pending, hf, List.map_cons, List.mem_cons] at hm
      rcases hm with rfl | hm
      · exact .inl (List.mem_cons_self ..)
      · exact .inr (pending_of_suffix hg.functions hm)
    have hold : ∀ {l}, l ∈ refsOf d ∨ l ∈ refsOf c → l ∈ labelsOf d ∨
        l ∈ labelsOf (.Klabel tc.label :: body) ∨ l ∈ pending s1 := by
      intro l hl
      rcases hs.known hl with h3 | h3 | h3
      · exact .inl h3
      · exact .inr (.inl (List.mem_cons_of_mem _ (labelsOf_of_suffix hg.kept h3)))
      · exact .inr (hentry h3)
    rintro l (hl | hl)
    · exact hold (.inl hl)
    · rcases hg.known hl with h2 | h2 | h2 | h2
      · exact hold (.inr h2)
      · exact .inr (.inl (List.mem_cons_of_mem _ h2))
      · exact .inr (.inr h2)
      · have hh : handlers { s with functionsToCompile := rem } = handlers s := rfl
        rw [hh, handlers, hs.raises] at h2
        exact absurd h2 List.not_mem_nil
  split at h
  · obtain ⟨rfl, rfl⟩ := pure_run.mp h
    have hgrab : Settling d s1 (.Klabel tc.label :: .Kgrab (tc.params.length - 1) :: body) :=
      ⟨hplaced.raises, ⟨hplaced.distinct.nodup, hplaced.distinct.bound⟩, hplaced.known⟩
    refine ⟨?_, hg.kept.trans (List.suffix_cons _ _)⟩
    exact ((Grown.refl s1 _).plain (i := .Krestart) (fun _ => rfl) rfl).settling hgrab
  · obtain ⟨rfl, rfl⟩ := pure_run.mp h
    exact ⟨hplaced, hg.kept.trans (List.suffix_cons _ _)⟩

/-- All functions are compiled; the list is empty at the end. -/
theorem compRemainder_settling {n k : Nat} (hs : Settling d s c)
    (h : compRemainder n k c s = .ok (c', s')) :
    Settling d s' c' ∧ s'.functionsToCompile = [] ∧ labelled c <:+ labelled c' := by
  induction k generalizing s c with
  | zero => exact absurd h throw_run
  | succ k ih =>
      unfold compRemainder at h
      rw [bind_run] at h
      obtain ⟨t, s1, h1, h⟩ := h
      obtain ⟨rfl, rfl⟩ := get_run.mp h1
      cases hf : s.functionsToCompile with
      | nil =>
          rw [hf] at h
          obtain ⟨rfl, rfl⟩ := pure_run.mp h
          exact ⟨hs, hf, List.suffix_rfl⟩
      | cons tc rem =>
          rw [hf] at h
          dsimp only at h
          rw [bind_run] at h
          obtain ⟨u, s2, h2, h⟩ := h
          obtain rfl := modify_run.mp h2
          rw [bind_run] at h
          obtain ⟨c1, s3, h3, h⟩ := h
          obtain ⟨hs3, hk⟩ := compFunction_settling hs hf h3
          obtain ⟨hs', hf', hk'⟩ := ih hs3 h
          exact ⟨hs', hf', hk.trans hk'⟩

/-- When no function is left, the code is linked with the code elsewhere. -/
theorem Settling.linked (h : Settling d s c) (hf : s.functionsToCompile = []) :
    Linked (d ++ c) := by
  have hp : pending s = [] := by rw [pending, hf, List.map_nil]
  constructor
  · have hn := h.distinct.nodup
    rw [hp, List.append_nil] at hn
    rw [labelsOf_append]
    exact hn
  · intro l hl
    rw [refsOf_append, List.mem_append] at hl
    rw [labelsOf_append, List.mem_append]
    rcases h.known hl with h1 | h1 | h1
    · exact .inl h1
    · exact .inr h1
    · rw [hp] at h1
      exact absurd h1 List.not_mem_nil

variable {debug : Bool} {counters : Counters}

theorem initialState_settling : Settling [] (initialState debug counters) [] where
  raises := rfl
  distinct := ⟨List.nodup_nil, fun hm => absurd hm List.not_mem_nil⟩
  known := fun hl => absurd (hl.elim id id) List.not_mem_nil

/-- The code of a unit: the branch at its beginning goes to the label behind the
    functions. -/
theorem compImplementation_linked {n : Nat} {e : Lambda}
    (h : compImplementation n e (initialState debug counters) = .ok (c, s)) : Linked c := by
  unfold compImplementation at h
  rw [bind_run] at h
  obtain ⟨initCode, s1, h1, h⟩ := h
  rw [bind_run] at h
  obtain ⟨t, s2, h2, h⟩ := h
  obtain ⟨rfl, rfl⟩ := get_run.mp h2
  have hs := (compBlock_grown h1).settling initialState_settling
  split at h
  · rw [bind_run] at h
    obtain ⟨lblInit, s3, h3, h⟩ := h
    rw [bind_run] at h
    obtain ⟨c1, s4, h4, h⟩ := h
    obtain ⟨rfl, rfl⟩ := pure_run.mp h
    obtain ⟨hs4, hf, hk⟩ := compRemainder_settling ((Grown.newLabel h3 initCode).settling hs) h4
    have hl := hs4.linked hf
    refine ⟨hl.nodup, ?_⟩
    intro l hm
    rcases List.mem_cons.mp hm with rfl | hm
    · exact labelsOf_of_suffix hk (List.mem_cons_self ..)
    · exact hl.placed hm
  · next hlen =>
      obtain ⟨rfl, rfl⟩ := pure_run.mp h
      exact hs.linked (List.length_eq_zero_iff.mp (Nat.eq_zero_of_not_pos hlen))

/-- The same for a unit compiled on its own, whatever the term. -/
theorem compileImplementation_linked {e : Lambda}
    (h : compileImplementation debug counters e = .ok c) : Linked c := by
  unfold compileImplementation at h
  cases hr : compImplementation (nodes e) e (initialState debug counters) with
  | error err =>
      rw [StateT.run', hr] at h
      cases h
  | ok p =>
      rw [StateT.run', hr] at h
      obtain rfl := Except.ok.inj h
      exact compImplementation_linked hr

end CamlBytegen
