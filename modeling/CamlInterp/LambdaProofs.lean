import CamlInterp.PrimitiveProofs

/-! # Lambda terms — `lambda/lambda.ml`

    The source language of the bytecode generator: the type `lambda`, the set of
    free variables, and the keys that decide which actions of a switch share
    their code.  Dropped is what neither the generator nor a key reads: the
    kinds, attributes and places of functions, and of an event all but its kind
    and its `lev_repr`. -/

namespace CamlLambda

open CamlEmit

/-! ## Terms -/

/-- `let_kind` -/
inductive LetKind where
  | Strict | Alias | StrictOpt
deriving DecidableEq, Repr

inductive MethKind where
  | Self | Public | Cached
deriving DecidableEq, Repr

inductive DirectionFlag where
  | Upto | Downto
deriving DecidableEq, Repr

/-- `tailcall_attribute` -/
inductive TailcallAttribute where
  | Tailcall_expectation (b : Bool) | Default_tailcall
deriving DecidableEq, Repr

/-- `inline_attribute` -/
inductive InlineAttribute where
  | Always_inline | Never_inline | Hint_inline | Unroll (n : Int) | Default_inline
deriving DecidableEq, Repr

/-- `specialise_attribute` -/
inductive SpecialiseAttribute where
  | Always_specialise | Never_specialise | Default_specialise
deriving DecidableEq, Repr

/-- The attributes of a `lambda_apply`. -/
structure ApplyAttributes where
  tailcall : TailcallAttribute
  inlined : InlineAttribute
  specialised : SpecialiseAttribute
deriving DecidableEq, Repr

/-- `lambda_event_kind`; a module definition is all that a term compiled without
    `-g` has. -/
inductive LambdaEventKind where
  | Lev_before | Lev_after | Lev_function | Lev_pseudo | Lev_module_definition
deriving DecidableEq, Repr

/-- `lambda`; the fields of `lambda_apply` and `lambda_switch` are those of
    `Lapply` and `Lswitch`. -/
inductive Lambda where
  | Lvar (id : Ident)
  | Lmutvar (id : Ident)
  | Lconst (cst : StructuredConstant)
  | Lapply (func : Lambda) (args : List Lambda) (loc : ScopedLocation) (attrs : ApplyAttributes)
  | Lfunction (params : List Ident) (body : Lambda)
  | Llet (str : LetKind) (kind : ValueKind) (id : Ident) (arg body : Lambda)
  | Lmutlet (kind : ValueKind) (id : Ident) (arg body : Lambda)
  | Lletrec (decl : List (Ident × Lambda)) (body : Lambda)
  | Lprim (p : Primitive) (args : List Lambda) (loc : ScopedLocation)
  | Lswitch (arg : Lambda) (numconsts : Nat) (consts : List (Nat × Lambda))
      (numblocks : Nat) (blocks : List (Nat × Lambda)) (failaction : Option Lambda)
      (loc : ScopedLocation)
  | Lstringswitch (arg : Lambda) (strings : List (String × Lambda)) (default : Option Lambda)
      (loc : ScopedLocation)
  | Lstaticraise (i : Int) (args : List Lambda)
  | Lstaticcatch (body : Lambda) (i : Int) (vars : List (Ident × ValueKind)) (handler : Lambda)
  | Ltrywith (body : Lambda) (id : Ident) (handler : Lambda)
  | Lifthenelse (cond ifso ifnot : Lambda)
  | Lsequence (e1 e2 : Lambda)
  | Lwhile (cond body : Lambda)
  | Lfor (param : Ident) (start stop : Lambda) (dir : DirectionFlag) (body : Lambda)
  | Lassign (id : Ident) (e : Lambda)
  | Lsend (kind : MethKind) (met obj : Lambda) (args : List Lambda) (loc : ScopedLocation)
  | Levent (lam : Lambda) (kind : LambdaEventKind) (repr : Option EventRef)
  | Lifused (id : Ident) (e : Lambda)

/-- `const_unit` -/
def constUnit : StructuredConstant := .Const_base (.Const_int 0)

/-- `lambda_unit` -/
def lambdaUnit : Lambda := .Lconst constUnit

/-- Whether a term is `lambda_unit`. -/
def isUnit : Lambda → Bool
  | .Lconst (.Const_base (.Const_int i)) => i = 0
  | _ => false

theorem isUnit_iff {e : Lambda} : isUnit e = true ↔ e = lambdaUnit := by
  constructor
  · intro h
    unfold isUnit at h
    split at h
    · next i => rw [of_decide_eq_true h, lambdaUnit, constUnit]
    · exact nomatch h
  · rintro rfl
    rfl

/-- Whether a term is `Lvar v` and `Ident.same v x`. -/
def isVar (x : Ident) : Lambda → Bool
  | .Lvar v => v.same x
  | _ => false

/-- Whether a term is an `Lfunction`. -/
def isFunction : Lambda → Bool
  | .Lfunction _ _ => true
  | _ => false

/-! ## Free variables -/

mutual

/-- `free_variables` -/
def freeVariables : Lambda → IdentSet
  | .Lvar id => [id]
  | .Lmutvar id => [id]
  | .Lconst _ => []
  | .Lapply func args _ _ => freeVariablesList (freeVariables func) args
  | .Lfunction params body => IdentSet.diff (freeVariables body) params
  | .Llet _ _ id arg body =>
      IdentSet.union (freeVariables arg) (IdentSet.remove id (freeVariables body))
  | .Lmutlet _ id arg body =>
      IdentSet.union (freeVariables arg) (IdentSet.remove id (freeVariables body))
  | .Lletrec decl body =>
      IdentSet.diff (freeVariablesDecl (freeVariables body) decl) (decl.map Prod.fst)
  | .Lprim _ args _ => freeVariablesList [] args
  | .Lswitch arg _ consts _ blocks failaction _ =>
      freeVariablesOpt
        (freeVariablesCases (freeVariablesCases (freeVariables arg) consts) blocks) failaction
  | .Lstringswitch arg strings default _ =>
      freeVariablesOpt (freeVariablesStrings (freeVariables arg) strings) default
  | .Lstaticraise _ args => freeVariablesList [] args
  | .Lstaticcatch body _ vars handler =>
      IdentSet.union (IdentSet.diff (freeVariables handler) (vars.map Prod.fst))
        (freeVariables body)
  | .Ltrywith body id handler =>
      IdentSet.union (IdentSet.remove id (freeVariables handler)) (freeVariables body)
  | .Lifthenelse e1 e2 e3 =>
      IdentSet.union (IdentSet.union (freeVariables e1) (freeVariables e2)) (freeVariables e3)
  | .Lsequence e1 e2 => IdentSet.union (freeVariables e1) (freeVariables e2)
  | .Lwhile e1 e2 => IdentSet.union (freeVariables e1) (freeVariables e2)
  | .Lfor v lo hi _ body =>
      IdentSet.union (IdentSet.union (freeVariables lo) (freeVariables hi))
        (IdentSet.remove v (freeVariables body))
  | .Lassign id e => IdentSet.add id (freeVariables e)
  | .Lsend _ met obj args _ =>
      freeVariablesList (IdentSet.union (freeVariables met) (freeVariables obj)) args
  | .Levent lam _ _ => freeVariables lam
  | .Lifused _ e => freeVariables e

/-- `free_variables_list` -/
def freeVariablesList (set : IdentSet) : List Lambda → IdentSet
  | [] => set
  | e :: rem => freeVariablesList (IdentSet.union (freeVariables e) set) rem

/-- `free_variables_list` of the bodies of a `let rec`. -/
def freeVariablesDecl (set : IdentSet) : List (Ident × Lambda) → IdentSet
  | [] => set
  | (_, e) :: rem => freeVariablesDecl (IdentSet.union (freeVariables e) set) rem

/-- `free_variables_list` of the actions of a switch. -/
def freeVariablesCases (set : IdentSet) : List (Nat × Lambda) → IdentSet
  | [] => set
  | (_, e) :: rem => freeVariablesCases (IdentSet.union (freeVariables e) set) rem

/-- `free_variables_list` of the actions of a `Lstringswitch`. -/
def freeVariablesStrings (set : IdentSet) : List (String × Lambda) → IdentSet
  | [] => set
  | (_, e) :: rem => freeVariablesStrings (IdentSet.union (freeVariables e) set) rem

/-- The default action of a switch. -/
def freeVariablesOpt (set : IdentSet) : Option Lambda → IdentSet
  | none => set
  | some e => IdentSet.union set (freeVariables e)

end

/-! ## Comparison of terms -/

deriving instance DecidableEq for Constant

mutual

/-- `Stdlib.compare` of two constants gives 0. -/
def sameConstant : StructuredConstant → StructuredConstant → Bool
  | .Const_base c, .Const_base d => c = d
  | .Const_block t cs, .Const_block u ds => t = u && sameConstants cs ds
  | .Const_float_array xs, .Const_float_array ys => xs = ys
  | .Const_immstring s, .Const_immstring t => s = t
  | _, _ => false

def sameConstants : List StructuredConstant → List StructuredConstant → Bool
  | [], [] => true
  | c :: cs, d :: ds => sameConstant c d && sameConstants cs ds
  | _, _ => false

end

mutual

/-- `Stdlib.compare` of two keys gives 0.  A key has neither functions nor loops
    nor events in it. -/
def sameLambda : Lambda → Lambda → Bool
  | .Lvar x, .Lvar y => x = y
  | .Lmutvar x, .Lmutvar y => x = y
  | .Lconst c, .Lconst d => sameConstant c d
  | .Lapply f es l a, .Lapply g ds m b =>
      sameLambda f g && sameLambdas es ds && l = m && a = b
  | .Llet s k x e1 e2, .Llet t j y d1 d2 =>
      s = t && k = j && x = y && sameLambda e1 d1 && sameLambda e2 d2
  | .Lmutlet k x e1 e2, .Lmutlet j y d1 d2 =>
      k = j && x = y && sameLambda e1 d1 && sameLambda e2 d2
  | .Lprim p es l, .Lprim q ds m => p = q && sameLambdas es ds && l = m
  | .Lswitch e nc cs nb bs o l, .Lswitch d mc as mb ts u m =>
      sameLambda e d && nc = mc && sameCases cs as && nb = mb && sameCases bs ts &&
        sameOpt o u && l = m
  | .Lstringswitch e ss o l, .Lstringswitch d ts u m =>
      sameLambda e d && sameStrings ss ts && sameOpt o u && l = m
  | .Lstaticraise i es, .Lstaticraise j ds => i = j && sameLambdas es ds
  | .Lstaticcatch e1 i xs e2, .Lstaticcatch d1 j ys d2 =>
      sameLambda e1 d1 && i = j && xs = ys && sameLambda e2 d2
  | .Ltrywith e1 x e2, .Ltrywith d1 y d2 => sameLambda e1 d1 && x = y && sameLambda e2 d2
  | .Lifthenelse e1 e2 e3, .Lifthenelse d1 d2 d3 =>
      sameLambda e1 d1 && sameLambda e2 d2 && sameLambda e3 d3
  | .Lsequence e1 e2, .Lsequence d1 d2 => sameLambda e1 d1 && sameLambda e2 d2
  | .Lassign x e, .Lassign y d => x = y && sameLambda e d
  | .Lsend k e1 e2 es l, .Lsend j d1 d2 ds m =>
      k = j && sameLambda e1 d1 && sameLambda e2 d2 && sameLambdas es ds && l = m
  | .Lifused x e, .Lifused y d => x = y && sameLambda e d
  | _, _ => false

def sameLambdas : List Lambda → List Lambda → Bool
  | [], [] => true
  | e :: es, d :: ds => sameLambda e d && sameLambdas es ds
  | _, _ => false

def sameCases : List (Nat × Lambda) → List (Nat × Lambda) → Bool
  | [], [] => true
  | (i, e) :: es, (j, d) :: ds => i = j && sameLambda e d && sameCases es ds
  | _, _ => false

def sameStrings : List (String × Lambda) → List (String × Lambda) → Bool
  | [], [] => true
  | (s, e) :: es, (t, d) :: ds => s = t && sameLambda e d && sameStrings es ds
  | _, _ => false

def sameOpt : Option Lambda → Option Lambda → Bool
  | none, none => true
  | some e, some d => sameLambda e d
  | _, _ => false

end

/-! ## Keys for sharing -/

/-- `max_raw` -/
def maxRaw : Nat := 32

inductive KeyError where
  /-- `Not_simple` -/
  | notSimple
  /-- `Misc.fatal_error` -/
  | fatalError (msg : String)

/-- The references of `make_key`: `count`, and the stamp of the next normalised
    identifier. -/
abbrev KeyM := StateT (Nat × Int) (Except KeyError)

/-- `raise Not_simple` -/
def notSimple {α : Type} : KeyM α := throw .notSimple

/-- `incr count; if !count > max_raw then raise Not_simple` -/
def countNode : KeyM Unit := do
  let (count, stamp) ← get
  if maxRaw < count + 1 then notSimple
  set (count + 1, stamp)

/-- `Ident.make_key_generator ()`; the stamps go down from 1. -/
def keyIdent (id : Ident) : KeyM Ident := do
  match id with
  | .Local _ _ | .Scoped _ _ =>
      let (count, stamp) ← get
      set (count, stamp - 1)
      return .Local "" stamp
  | id => throw (.fatalError ("Ident.make_key_generator () " ++ id.name))

/-- `Ident.add` -/
def extend {α : Type} (env : Ident → Option α) (x : Ident) (a : α) : Ident → Option α :=
  fun y => if y = x then some a else env y

mutual

/-- `tr_rec` of `make_key`; the parts of a term are evaluated from the right. -/
def trRec (env : Ident → Option Lambda) : Lambda → KeyM Lambda
  | .Lvar id => do
      countNode
      return (env id).getD (.Lvar id)
  | .Lmutvar id => do
      countNode
      return (env id).getD (.Lmutvar id)
  | .Lconst cst => do
      countNode
      match cst with
      | .Const_base (.Const_string _) => notSimple
      | cst => return .Lconst cst
  | .Lapply func args _ attrs => do
      countNode
      let args ← trRecs env args
      return .Lapply (← trRec env func) args .Loc_unknown attrs
  | .Llet str kind x ex e => do
      countNode
      if str = .Alias then trRec (extend env x (← trRec env ex)) e
      else
        let ex ← trRec env ex
        if isVar x e then return ex
        else
          let y ← keyIdent x
          return .Llet str kind y ex (← trRec (extend env x (.Lvar y)) e)
  | .Lmutlet kind x ex e => do
      countNode
      let ex ← trRec env ex
      let y ← keyIdent x
      return .Lmutlet kind y ex (← trRec (extend env x (.Lmutvar y)) e)
  | .Lprim p es _ => do
      countNode
      return .Lprim p (← trRecs env es) .Loc_unknown
  | .Lswitch e numconsts consts numblocks blocks failaction loc => do
      countNode
      let failaction ← trOpt env failaction
      let blocks ← trCases env blocks
      let consts ← trCases env consts
      return .Lswitch (← trRec env e) numconsts consts numblocks blocks failaction loc
  | .Lstringswitch e strings default _ => do
      countNode
      let default ← trOpt env default
      let strings ← trStrings env strings
      return .Lstringswitch (← trRec env e) strings default .Loc_unknown
  | .Lstaticraise i es => do
      countNode
      return .Lstaticraise i (← trRecs env es)
  | .Lstaticcatch e1 i xs e2 => do
      countNode
      let e2 ← trRec env e2
      return .Lstaticcatch (← trRec env e1) i xs e2
  | .Ltrywith e1 x e2 => do
      countNode
      let e2 ← trRec env e2
      return .Ltrywith (← trRec env e1) x e2
  | .Lifthenelse cond ifso ifnot => do
      countNode
      let ifnot ← trRec env ifnot
      let ifso ← trRec env ifso
      return .Lifthenelse (← trRec env cond) ifso ifnot
  | .Lsequence e1 e2 => do
      countNode
      let e2 ← trRec env e2
      return .Lsequence (← trRec env e1) e2
  | .Lassign x e => do
      countNode
      return .Lassign x (← trRec env e)
  | .Lsend m e1 e2 es _ => do
      countNode
      let es ← trRecs env es
      let e2 ← trRec env e2
      return .Lsend m (← trRec env e1) e2 es .Loc_unknown
  | .Lifused id e => do
      countNode
      return .Lifused id (← trRec env e)
  | .Lletrec _ _ | .Lfunction _ _ | .Lfor _ _ _ _ _ | .Lwhile _ _ | .Levent _ _ _ => notSimple

/-- `tr_recs` -/
def trRecs (env : Ident → Option Lambda) : List Lambda → KeyM (List Lambda)
  | [] => return []
  | e :: es => return (← trRec env e) :: (← trRecs env es)

/-- `List.map (fun (i,e) -> i,tr_rec env e)` -/
def trCases (env : Ident → Option Lambda) : List (Nat × Lambda) → KeyM (List (Nat × Lambda))
  | [] => return []
  | (i, e) :: es => return (i, ← trRec env e) :: (← trCases env es)

/-- `List.map (fun (s,e) -> s,tr_rec env e)` -/
def trStrings (env : Ident → Option Lambda) :
    List (String × Lambda) → KeyM (List (String × Lambda))
  | [] => return []
  | (s, e) :: es => return (s, ← trRec env e) :: (← trStrings env es)

/-- `tr_opt` -/
def trOpt (env : Ident → Option Lambda) : Option Lambda → KeyM (Option Lambda)
  | none => return none
  | some e => return some (← trRec env e)

end

/-- `make_key` -/
def makeKey (e : Lambda) : Except String (Option Lambda) :=
  match (trRec (fun _ => none) e).run' (0, 1) with
  | .ok key => .ok (some key)
  | .error .notSimple => .ok none
  | .error (.fatalError msg) => .error msg

/-! ## Sizes -/

mutual

/-- The sum of the weights of all subterms. -/
def total (w : Lambda → Nat) : Lambda → Nat
  | .Lvar id => w (.Lvar id)
  | .Lmutvar id => w (.Lmutvar id)
  | .Lconst cst => w (.Lconst cst)
  | .Lapply func args loc attrs =>
      total w func + totalList w args + w (.Lapply func args loc attrs)
  | .Lfunction params body => total w body + w (.Lfunction params body)
  | .Llet str kind id arg body => total w arg + total w body + w (.Llet str kind id arg body)
  | .Lmutlet kind id arg body => total w arg + total w body + w (.Lmutlet kind id arg body)
  | .Lletrec decl body => totalDecl w decl + total w body + w (.Lletrec decl body)
  | .Lprim p args loc => totalList w args + w (.Lprim p args loc)
  | .Lswitch arg numconsts consts numblocks blocks failaction loc =>
      total w arg + totalCases w consts + totalCases w blocks + totalOpt w failaction +
        w (.Lswitch arg numconsts consts numblocks blocks failaction loc)
  | .Lstringswitch arg strings default loc =>
      total w arg + totalStrings w strings + totalOpt w default +
        w (.Lstringswitch arg strings default loc)
  | .Lstaticraise i args => totalList w args + w (.Lstaticraise i args)
  | .Lstaticcatch e1 i vars e2 => total w e1 + total w e2 + w (.Lstaticcatch e1 i vars e2)
  | .Ltrywith e1 id e2 => total w e1 + total w e2 + w (.Ltrywith e1 id e2)
  | .Lifthenelse e1 e2 e3 => total w e1 + total w e2 + total w e3 + w (.Lifthenelse e1 e2 e3)
  | .Lsequence e1 e2 => total w e1 + total w e2 + w (.Lsequence e1 e2)
  | .Lwhile e1 e2 => total w e1 + total w e2 + w (.Lwhile e1 e2)
  | .Lfor param e1 e2 dir e3 =>
      total w e1 + total w e2 + total w e3 + w (.Lfor param e1 e2 dir e3)
  | .Lassign id e => total w e + w (.Lassign id e)
  | .Lsend kind met obj args loc =>
      total w met + total w obj + totalList w args + w (.Lsend kind met obj args loc)
  | .Levent e kind repr => total w e + w (.Levent e kind repr)
  | .Lifused id e => total w e + w (.Lifused id e)

def totalList (w : Lambda → Nat) : List Lambda → Nat
  | [] => 0
  | e :: es => total w e + totalList w es

def totalDecl (w : Lambda → Nat) : List (Ident × Lambda) → Nat
  | [] => 0
  | (_, e) :: es => total w e + totalDecl w es

def totalCases (w : Lambda → Nat) : List (Nat × Lambda) → Nat
  | [] => 0
  | (_, e) :: es => total w e + totalCases w es

def totalStrings (w : Lambda → Nat) : List (String × Lambda) → Nat
  | [] => 0
  | (_, e) :: es => total w e + totalStrings w es

def totalOpt (w : Lambda → Nat) : Option Lambda → Nat
  | none => 0
  | some e => total w e

end

/-- Every term counts, a `Pduparray` twice, since it is compiled as another
    primitive, and an `Lstringswitch` as much as its tests will take. -/
def nodeWeight : Lambda → Nat
  | .Lstringswitch _ strings _ _ => 13 * strings.length + 4
  | .Lprim (.Pduparray _ _) _ _ => 2
  | _ => 1

/-- How many nodes a term has. -/
def nodes (e : Lambda) : Nat := total nodeWeight e

/-- Only the events count that a compilation without `-g` does not make. -/
def eventWeight : Lambda → Nat
  | .Levent _ .Lev_module_definition _ => 0
  | .Levent _ _ _ => 1
  | _ => 0

/-- How many events for the debugger a term has. -/
def debugEvents (e : Lambda) : Nat := total eventWeight e

end CamlLambda
