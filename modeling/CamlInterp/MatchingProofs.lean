import Mathlib.Tactic.Ring
import CamlInterp.LambdaProofs

/-! # String switches — `lambda/matching.ml`

    The bytecode generator has no instruction for a switch on strings.  It calls
    `expand_stringswitch`, which searches by comparisons while there are many
    strings, and then tests them one after the other.  The fresh identifiers and
    exit numbers are handed out by `Counters`. -/

namespace CamlMatching

open CamlLambda CamlEmit

/-- `Ident.currentstamp` and `Lambda.raise_count`. -/
structure Counters where
  currentstamp : Int
  raiseCount : Int

/-- An assertion that fails is `none`. -/
abbrev Matching := StateT Counters Option

/-- `Ident.create_local` -/
def createLocal (s : String) : Matching Ident := do
  modify fun k => { k with currentstamp := k.currentstamp + 1 }
  return .Local s (← get).currentstamp

/-- `next_raise_count` -/
def nextRaiseCount : Matching Int := do
  modify fun k => { k with raiseCount := k.raiseCount + 1 }
  return (← get).raiseCount

/-! ## Tests on strings -/

/-- `make_exit` -/
def makeExit (i : Int) : Lambda := .Lstaticraise i []

/-- `make_catch` -/
def makeCatch (d : Lambda) (k : Lambda → Matching Lambda) : Matching Lambda :=
  match d with
  | .Lstaticraise i [] => k (.Lstaticraise i [])
  | d => do
      let e ← nextRaiseCount
      return .Lstaticcatch (← k (makeExit e)) e [] d

/-- `strings_test_threshold` -/
def stringsTestThreshold : Nat := 8

/-- `prim_string_notequal` -/
def primStringNotequal : Primitive := .Pccall (simple "caml_string_notequal" 2 false)

/-- `prim_string_compare` -/
def primStringCompare : Primitive := .Pccall (simple "caml_string_compare" 2 false)

/-- `bind_sw` -/
def bindSw (arg : Lambda) (k : Lambda → Matching Lambda) : Matching Lambda :=
  match arg with
  | .Lvar id => k (.Lvar id)
  | arg => do
      let id ← createLocal "switch"
      return .Llet .Strict .Pgenval id arg (← k (.Lvar id))

/-- The tests of `make_string_test_sequence`. -/
def stringTests (loc : ScopedLocation) (arg : Lambda) :
    List (String × Lambda) → Lambda → Lambda
  | [], d => d
  | (str, lam) :: sw, d =>
      .Lifthenelse
        (.Lprim primStringNotequal [arg, .Lconst (.Const_immstring str)] loc)
        (stringTests loc arg sw d) lam

/-- `make_string_test_sequence` -/
def makeStringTestSequence (loc : ScopedLocation) (arg : Lambda) (sw : List (String × Lambda))
    (d : Option Lambda) : Matching Lambda :=
  match d, sw with
  | some d, sw => bindSw arg fun arg => return stringTests loc arg sw d
  | none, (_, d) :: sw => bindSw arg fun arg => return stringTests loc arg sw d
  | none, [] => failure

/-- `split`; `none` is a failed assertion. -/
def split {α : Type} : Nat → List α → Option (List α × α × List α)
  | _, [] => none
  | k, x0 :: xs =>
      if k ≤ 1 then some ([], x0, xs)
      else do
        let (xs, y0, ys) ← split (k - 2) xs
        return (x0 :: xs, y0, ys)

/-- `zero_lam` -/
def zeroLam : Lambda := .Lconst (.Const_base (.Const_int 0))

/-- `tree_way_test` -/
def treeWayTest (loc : ScopedLocation) (arg lt eq gt : Lambda) : Lambda :=
  .Lifthenelse (.Lprim (.Pintcomp .Clt) [arg, zeroLam] loc) lt
    (.Lifthenelse (.Lprim (.Pintcomp .Clt) [zeroLam, arg] loc) gt eq)

/-- `split` leaves no element out. -/
theorem split_perm {α : Type} {k : Nat} {xs lt gt : List α} {y : α}
    (h : split k xs = some (lt, y, gt)) : xs.Perm (y :: lt ++ gt) := by
  fun_induction split k xs generalizing lt with
  | case1 => cases h
  | case2 k x xs hk =>
      obtain ⟨rfl, rfl, rfl⟩ := Option.some.inj h
      exact List.Perm.refl _
  | case3 k x xs hk ih =>
      obtain ⟨⟨xs', y', ys'⟩, h1, h2⟩ := Option.bind_eq_some_iff.mp h
      obtain ⟨rfl, rfl, rfl⟩ := Option.some.inj h2
      exact ((ih h1).cons x).trans (List.Perm.swap ..)

theorem split_length {α : Type} {k : Nat} {xs lt gt : List α} {y : α}
    (h : split k xs = some (lt, y, gt)) : lt.length < xs.length ∧ gt.length < xs.length := by
  have hlen := (split_perm h).length_eq
  rw [List.length_append, List.length_cons] at hlen
  omega

/-- `do_make_string_test_tree` -/
def doMakeStringTestTree (loc : ScopedLocation) (arg : Lambda) (sw : List (String × Lambda))
    (delta : Nat) (d : Option Lambda) : Matching Lambda :=
  if sw.length ≤ stringsTestThreshold + delta then makeStringTestSequence loc arg sw d
  else
    match h : split sw.length sw with
    | none => failure
    | some (lt, (s, act), gt) =>
        bindSw (.Lprim primStringCompare [arg, .Lconst (.Const_immstring s)] loc) fun r => do
          -- arguments are evaluated from the right
          let gtTest ← doMakeStringTestTree loc arg gt delta d
          let ltTest ← doMakeStringTestTree loc arg lt delta d
          return treeWayTest loc r ltTest act gtTest
termination_by sw.length
decreasing_by
  · exact (split_length h).2
  · exact (split_length h).1

/-- `expand_stringswitch` -/
def expandStringswitch (loc : ScopedLocation) (arg : Lambda) (sw : List (String × Lambda))
    (d : Option Lambda) : Matching Lambda :=
  match d with
  | none => bindSw arg fun arg => doMakeStringTestTree loc arg sw 0 none
  | some e =>
      bindSw arg fun arg => makeCatch e fun d => doMakeStringTestTree loc arg sw 1 (some d)

/-! ## What an expansion weighs -/

/-- What a run returns has the property, if it returns. -/
def Returns {α : Type} (P : α → Prop) (x : Matching α) : Prop :=
  ∀ k a k', x k = some (a, k') → P a

variable {α β : Type} {P : α → Prop} {Q : β → Prop}

theorem Returns.pure {a : α} (h : P a) : Returns P (pure a) := by
  intro k a' k' hrun
  cases hrun
  exact h

theorem Returns.bind {x : Matching α} {f : α → Matching β} (hx : Returns P x)
    (hf : ∀ a, P a → Returns Q (f a)) : Returns Q (x >>= f) := by
  intro k b k' hrun
  obtain ⟨⟨a, k1⟩, h1, h2⟩ := Option.bind_eq_some_iff.mp hrun
  exact hf a (hx k a k1 h1) k1 b k' h2

theorem Returns.any (x : Matching α) : Returns (fun _ => True) x :=
  fun _ _ _ _ => trivial

theorem Returns.failure : Returns P (failure : Matching α) := by
  intro k a k' hrun
  cases hrun

/-- The terms that tests are made of. -/
def isTest : Lambda → Bool
  | .Lvar _ | .Lconst _ | .Lprim (.Pccall _) _ _ | .Lprim (.Pintcomp _) _ _ => true
  | .Llet _ _ _ _ _ | .Lifthenelse _ _ _ | .Lstaticcatch _ _ _ _ | .Lstaticraise _ _ => true
  | _ => false

/-- A weight that gives at most `c` to what tests are made of. -/
def Light (w : Lambda → Nat) (c : Nat) : Prop := ∀ e, isTest e = true → w e ≤ c

/-- At most `m`, by the weight `w`. -/
def AtMost (w : Lambda → Nat) (m : Nat) (e : Lambda) : Prop := total w e ≤ m

section

variable {w : Lambda → Nat} {c : Nat}

theorem totalStrings_perm {xs ys : List (String × Lambda)} (h : xs.Perm ys) :
    totalStrings w xs = totalStrings w ys := by
  induction h with
  | nil => rfl
  | cons x _ ih =>
      simp only [totalStrings]
      rw [ih]
  | swap x y xs =>
      simp only [totalStrings]
      omega
  | trans _ _ ih1 ih2 => exact ih1.trans ih2

theorem totalStrings_append (xs ys : List (String × Lambda)) :
    totalStrings w (xs ++ ys) = totalStrings w xs + totalStrings w ys := by
  induction xs with
  | nil => exact (Nat.zero_add _).symm
  | cons x xs ih =>
      simp only [List.cons_append, totalStrings]
      rw [ih]
      omega

/-- A primitive of two arguments. -/
theorem total_prim (hw : Light w c) {p : Primitive} (e1 e2 : Lambda) (loc : ScopedLocation)
    (hp : isTest (.Lprim p [e1, e2] loc) = true) :
    total w (.Lprim p [e1, e2] loc) ≤ total w e1 + total w e2 + c := by
  have h := hw (.Lprim p [e1, e2] loc) hp
  simp only [total, totalList]
  omega

theorem total_var (hw : Light w c) (id : Ident) : total w (.Lvar id) ≤ c := hw _ rfl

theorem total_const (hw : Light w c) (cst : StructuredConstant) : total w (.Lconst cst) ≤ c :=
  hw _ rfl

theorem total_exit (hw : Light w c) (i : Int) : total w (makeExit i) ≤ c := by
  have h := hw (.Lstaticraise i []) rfl
  simp only [makeExit, total, totalList]
  omega

theorem total_test (hw : Light w c) (e1 e2 e3 : Lambda) :
    total w (.Lifthenelse e1 e2 e3) ≤ total w e1 + total w e2 + total w e3 + c :=
  Nat.add_le_add_left (hw (.Lifthenelse e1 e2 e3) rfl) _

/-- A test of a string takes four nodes. -/
theorem total_stringTests (hw : Light w c) (loc : ScopedLocation) (id : Ident)
    (sw : List (String × Lambda)) (d : Lambda) :
    total w (stringTests loc (.Lvar id) sw d) ≤
      totalStrings w sw + total w d + c * (4 * sw.length) := by
  induction sw with
  | nil => simp [stringTests, totalStrings]
  | cons x sw ih =>
      obtain ⟨s, lam⟩ := x
      have h1 := @total_prim _ _ hw primStringNotequal (.Lvar id)
        (.Lconst (.Const_immstring s)) loc rfl
      have h2 := total_var hw id
      have h3 := total_const hw (.Const_immstring s)
      have h4 := total_test hw (.Lprim primStringNotequal
        [.Lvar id, .Lconst (.Const_immstring s)] loc) (stringTests loc (.Lvar id) sw d) lam
      have hlen : c * (4 * ((s, lam) :: sw).length) = c * (4 * sw.length) + 4 * c := by
        rw [List.length_cons]
        ring
      rw [stringTests, totalStrings, hlen]
      omega

/-- A three-way test takes eight. -/
theorem total_treeWayTest (hw : Light w c) (loc : ScopedLocation) (id : Ident)
    (lt eq gt : Lambda) :
    total w (treeWayTest loc (.Lvar id) lt eq gt) ≤
      total w lt + total w eq + total w gt + 8 * c := by
  have h1 := @total_prim _ _ hw (.Pintcomp .Clt) (.Lvar id) zeroLam loc rfl
  have h2 := @total_prim _ _ hw (.Pintcomp .Clt) zeroLam (.Lvar id) loc rfl
  have h3 := total_var hw id
  have h4 := total_const hw (.Const_base (.Const_int 0))
  have hzero : total w zeroLam ≤ c := h4
  have h5 := total_test hw (.Lprim (.Pintcomp .Clt) [zeroLam, .Lvar id] loc) gt eq
  have h6 := total_test hw (.Lprim (.Pintcomp .Clt) [.Lvar id, zeroLam] loc) lt
    (.Lifthenelse (.Lprim (.Pintcomp .Clt) [zeroLam, .Lvar id] loc) gt eq)
  unfold treeWayTest
  omega

/-- A binding takes one node, and its variable one wherever it is used. -/
theorem bindSw_light (hw : Light w c) {arg : Lambda} {k : Lambda → Matching Lambda} {m : Nat}
    (hk : ∀ id, Returns (AtMost w m) (k (.Lvar id))) :
    Returns (AtMost w (total w arg + c + m)) (bindSw arg k) := by
  unfold bindSw
  split
  · next id =>
      intro k a k' hrun
      have h := hk id _ _ _ hrun
      unfold AtMost at h ⊢
      omega
  · refine Returns.bind (.any _) fun id _ => Returns.bind (hk id) fun e he => .pure ?_
    have h := hw (.Llet .Strict .Pgenval id arg e) rfl
    unfold AtMost at he ⊢
    rw [total]
    omega

/-- A handler takes one node, and the default action stands in it once. -/
theorem makeCatch_light (hw : Light w c) {e : Lambda} {k : Lambda → Matching Lambda} {m : Nat}
    (hk : ∀ i, Returns (AtMost w m) (k (makeExit i))) :
    Returns (AtMost w (total w e + c + m)) (makeCatch e k) := by
  unfold makeCatch
  split
  · next i =>
      intro k a k' hrun
      have h := hk i _ _ _ hrun
      unfold AtMost at h ⊢
      omega
  · refine Returns.bind (.any _) fun i _ => Returns.bind (hk i) fun e' he => .pure ?_
    have h := hw (.Lstaticcatch e' i [] e) rfl
    unfold AtMost at he ⊢
    rw [total]
    omega

/-- A sequence of tests on a variable. -/
theorem makeStringTestSequence_light (hw : Light w c) (loc : ScopedLocation) (id : Ident)
    (sw : List (String × Lambda)) (d : Option Lambda) :
    Returns (AtMost w (totalStrings w sw + totalOpt w d + c * (4 * sw.length)))
      (makeStringTestSequence loc (.Lvar id) sw d) := by
  unfold makeStringTestSequence
  split
  · next d => exact .pure (total_stringTests hw loc id _ d)
  · next s d sw =>
      refine .pure ?_
      have h := total_stringTests hw loc id sw d
      have hle : c * (4 * sw.length) ≤ c * (4 * ((s, d) :: sw).length) :=
        Nat.mul_le_mul_left c (by rw [List.length_cons]; omega)
      unfold AtMost
      simp only [totalStrings, totalOpt]
      omega
  · exact .failure

/-- A search takes thirteen nodes for every string at most. -/
theorem doMakeStringTestTree_light (hw : Light w c) (loc : ScopedLocation) (id : Ident)
    (sw : List (String × Lambda)) (delta : Nat) (d : Option Lambda) (hd : totalOpt w d ≤ c) :
    Returns (AtMost w (totalStrings w sw + totalOpt w d + c * (13 * sw.length)))
      (doMakeStringTestTree loc (.Lvar id) sw delta d) := by
  fun_induction doMakeStringTestTree loc (.Lvar id) sw delta d with
  | case1 sw =>
      intro k a k' hrun
      have h := makeStringTestSequence_light hw loc id sw d k a k' hrun
      have hle : c * (4 * sw.length) ≤ c * (13 * sw.length) :=
        Nat.mul_le_mul_left c (by omega)
      unfold AtMost at h ⊢
      omega
  | case2 => exact .failure
  | case3 sw hlen lt s act gt hsplit ihgt ihlt =>
      have hperm := split_perm hsplit
      have hcount : sw.length = lt.length + gt.length + 1 := by
        rw [hperm.length_eq, List.length_append, List.length_cons]
        omega
      have hsum : totalStrings w sw =
          total w act + totalStrings w lt + totalStrings w gt := by
        rw [totalStrings_perm hperm, List.cons_append, totalStrings, totalStrings_append]
        omega
      have hc : c * (13 * sw.length) =
          c * (13 * lt.length) + c * (13 * gt.length) + 13 * c := by
        rw [hcount]
        ring
      have hprim := @total_prim _ _ hw primStringCompare (.Lvar id)
        (.Lconst (.Const_immstring s)) loc rfl
      have hvar := total_var hw id
      have hconst := total_const hw (.Const_immstring s)
      have hbody : ∀ r, Returns (AtMost w (total w act + (totalStrings w lt + totalOpt w d +
          c * (13 * lt.length)) + (totalStrings w gt + totalOpt w d + c * (13 * gt.length)) +
          8 * c)) (do
            let gtTest ← doMakeStringTestTree loc (.Lvar id) gt delta d
            let ltTest ← doMakeStringTestTree loc (.Lvar id) lt delta d
            return treeWayTest loc (.Lvar r) ltTest act gtTest) := by
        intro r
        refine Returns.bind ihgt fun gtTest hgt => Returns.bind ihlt fun ltTest hlt => .pure ?_
        have h := total_treeWayTest hw loc r ltTest act gtTest
        unfold AtMost at hgt hlt ⊢
        omega
      intro k a k' hrun
      have h := bindSw_light hw hbody k a k' hrun
      unfold AtMost at h ⊢
      omega

/-- An expansion has the parts of the switch and at most thirteen nodes more for
    every string, and three. -/
theorem expandStringswitch_light (hw : Light w c) (loc : ScopedLocation) (arg : Lambda)
    (sw : List (String × Lambda)) (d : Option Lambda) :
    Returns (AtMost w (total w arg + totalStrings w sw + totalOpt w d +
      c * (13 * sw.length + 3))) (expandStringswitch loc arg sw d) := by
  have hc : c * (13 * sw.length + 3) = c * (13 * sw.length) + 3 * c := by ring
  unfold expandStringswitch
  split
  · have htree := fun id => doMakeStringTestTree_light hw loc id sw 0 none (Nat.zero_le c)
    intro k a k' hrun
    have h := bindSw_light hw htree k a k' hrun
    unfold AtMost at h ⊢
    simp only [totalOpt] at h ⊢
    omega
  · next e =>
      have htree : ∀ id i, Returns (AtMost w (totalStrings w sw + c + c * (13 * sw.length)))
          (doMakeStringTestTree loc (.Lvar id) sw 1 (some (makeExit i))) := by
        intro id i k a k' hrun
        have hexit := total_exit hw i
        have h := doMakeStringTestTree_light hw loc id sw 1 (some (makeExit i)) hexit k a k' hrun
        unfold AtMost at h ⊢
        simp only [totalOpt] at h
        omega
      intro k a k' hrun
      have h := bindSw_light hw (fun id => makeCatch_light hw (htree id)) k a k' hrun
      unfold AtMost at h ⊢
      simp only [totalOpt]
      omega

end

end CamlMatching
