import CamlInterp.MatchingProofs

/-! # The code generator — `bytecomp/bytegen.ml`

    `comp_expr` puts the code of a term in front of the code that is to run
    after it, looking at the latter to avoid jumps to jumps and to find tail
    calls.  The references of the module are the state `GenState`;
    `fatal_error` and failed assertions are errors.  The OCaml functions call
    one another through `comp_expr`, here an argument of each, and
    `compExpr n` ties the knot for terms up to depth `n`. -/

namespace CamlBytegen

open CamlEmit CamlLambda CamlMatching

/-- `compilation_env`; a table is the function that looks an identifier up. -/
structure CompilationEnv where
  ceStack : Ident → Option Int
  ceHeap : Ident → Option Int
  ceRec : Ident → Option Int

/-- `function_to_compile` -/
structure FunctionToCompile where
  params : List Ident
  body : Lambda
  label : Label
  freeVars : List Ident
  numDefs : Nat
  recVars : List Ident
  recPos : Nat

/-- The references of the module; `Clflags.debug`, the counters of other modules,
    and how many references `weaken_event` has made. -/
structure GenState where
  labelCounter : Nat
  szStaticRaises : List (Int × Label × Int × List Int)
  tryBlocks : List Int
  functionsToCompile : List FunctionToCompile
  maxStackUsed : Int
  debug : Bool
  counters : Counters
  eventRefs : Nat

inductive GenError where
  /-- `Misc.fatal_error` -/
  | fatalError (msg : String)
  /-- `assert` -/
  | assertFailed
  /-- an array index out of bounds -/
  | invalidArgument
  /-- deeper than the recursion was unfolded -/
  | outOfFuel
deriving DecidableEq, Repr

abbrev Gen := StateT GenState (Except GenError)

/-- `fatal_error` -/
def fatalError {α : Type} (msg : String) : Gen α := throw (.fatalError msg)

/-- `assert` -/
def assertGen (b : Bool) : Gen Unit := if b then pure () else throw .assertFailed

/-! ## Labels -/

/-- `new_label` -/
def newLabel : Gen Label := do
  modify fun s => { s with labelCounter := s.labelCounter + 1 }
  return (← get).labelCounter

/-! ## Compilation environments -/

/-- `empty_env` -/
def emptyEnv : CompilationEnv := ⟨fun _ => none, fun _ => none, fun _ => none⟩

/-- `add_var` -/
def addVar (id : Ident) (pos : Int) (env : CompilationEnv) : CompilationEnv :=
  { env with ceStack := extend env.ceStack id pos }

/-- `add_vars` -/
def addVars : List Ident → Int → CompilationEnv → CompilationEnv
  | [], _, env => env
  | id :: rem, pos, env => addVars rem (pos + 1) (addVar id pos env)

/-! ## Examination of the continuation -/

/-- `label_code` -/
def labelCode : Code → Gen (Label × Code)
  | .Kbranch lbl :: c => return (lbl, .Kbranch lbl :: c)
  | .Klabel lbl :: c => return (lbl, .Klabel lbl :: c)
  | cont => do
      let lbl ← newLabel
      return (lbl, .Klabel lbl :: cont)

/-- `make_branch_2` -/
def makeBranch2 (lbl : Option Label) (n : Int) (cont : Code) : Code → Gen (Instruction × Code)
  | .Kreturn m :: _ => return (.Kreturn (n + m), cont)
  | .Klabel _ :: c => makeBranch2 lbl n cont c
  | .Kpop m :: c => makeBranch2 lbl (n + m) cont c
  | _ =>
      match lbl with
      | some lbl => return (.Kbranch lbl, cont)
      | none => do
          let lbl ← newLabel
          return (.Kbranch lbl, .Klabel lbl :: cont)

/-- `make_branch` -/
def makeBranch (cont : Code) : Gen (Instruction × Code) :=
  match cont with
  | .Kbranch lbl :: _ => return (.Kbranch lbl, cont)
  | .Kreturn n :: _ => return (.Kreturn n, cont)
  | .Kraise k :: _ => return (.Kraise k, cont)
  | .Klabel lbl :: _ => makeBranch2 (some lbl) 0 cont cont
  | _ => makeBranch2 none 0 cont cont

/-- `branch_to` -/
def branchTo (label : Label) (cont : Code) : Code :=
  match cont with
  | .Klabel label0 :: _ => if label = label0 then cont else .Kbranch label :: cont
  | _ => .Kbranch label :: cont

/-- `discard_dead_code` -/
def discardDeadCode : Code → Code
  | [] => []
  | .Klabel lbl :: c => .Klabel lbl :: c
  | .Krestart :: c => .Krestart :: c
  | .Ksetglobal id :: c => .Ksetglobal id :: c
  | _ :: cont => discardDeadCode cont

/-- `is_tailcall` -/
def isTailcall : Code → Bool
  | .Kreturn _ :: _ => true
  | .Klabel _ :: c => isTailcall c
  | .Kpop _ :: c => isTailcall c
  | _ => false

/-- `add_pop` -/
def addPop (n : Int) (cont : Code) : Code :=
  if n = 0 then cont
  else
    match cont with
    | .Kpop m :: cont => addPop (n + m) cont
    | .Kreturn m :: cont => .Kreturn (n + m) :: cont
    | .Kraise k :: c => .Kraise k :: c
    | cont => .Kpop n :: cont

/-- `add_const_unit` -/
def addConstUnit : Code → Code
  | .Kacc n :: c => .Kacc n :: c
  | .Kconst sc :: c => .Kconst sc :: c
  | .Kgetglobal id :: c => .Kgetglobal id :: c
  | .Kpush_retaddr lbl :: c => .Kpush_retaddr lbl :: c
  | cont => .Kconst constUnit :: cont

/-- `push_dummies` -/
def pushDummies : Nat → Code → Code
  | 0, k => k
  | n + 1, k => .Kconst constUnit :: .Kpush :: pushDummies n k

/-- The `offset` of a `for` loop. -/
def forOffset : DirectionFlag → Int
  | .Upto => 1
  | .Downto => -1

/-- The `comp` that leaves a `for` loop before its first round. -/
def forExit : DirectionFlag → IntegerComparison
  | .Upto => .Cgt
  | .Downto => .Clt

/-- The continuation of an argument of `Pnot`. -/
def notCont : Code → Code
  | .Kbranchif lbl :: cont1 => .Kbranchifnot lbl :: cont1
  | .Kbranchifnot lbl :: cont1 => .Kbranchif lbl :: cont1
  | cont => .Kboolnot :: cont

/-! ## Sizes of the right-hand sides of a `let rec` -/

/-- `rhs_kind` -/
inductive RhsKind where
  | RHS_block (size : Int)
  | RHS_infix (blocksize offset : Int)
  | RHS_floatblock (size : Int)
  | RHS_nonrec
  | RHS_function (blocksize arity : Int)
deriving DecidableEq

/-- `check_recordwith_updates` -/
def checkRecordwithUpdates (id : Ident) : Lambda → Bool
  | .Lsequence (.Lprim (.Psetfield _ _ _) [.Lvar id2, _] _) cont =>
      id2 = id && checkRecordwithUpdates id cont
  | .Lsequence (.Lprim (.Psetfloatfield _ _) [.Lvar id2, _] _) cont =>
      id2 = id && checkRecordwithUpdates id cont
  | .Lvar id2 => id2 = id
  | _ => false

/-- The size of a block that `Pduprecord (kind, size)` makes. -/
def duprecordSize (kind : RecordRepresentation) (size : Int) : Except GenError RhsKind :=
  match kind with
  | .Record_regular | .Record_inlined _ => .ok (.RHS_block size)
  | .Record_unboxed _ => .error .assertFailed
  | .Record_float => .ok (.RHS_floatblock size)
  | .Record_extension _ => .ok (.RHS_block (size + 1))

/-- `Llet (Strict, _, id, Lprim (Pduprecord (kind, size), _, _), body)
    when check_recordwith_updates id body` -/
def recordCopy (str : LetKind) (id : Ident) (arg body : Lambda) :
    Option (RecordRepresentation × Int) :=
  match str, arg with
  | .Strict, .Lprim (.Pduprecord kind size) _ _ =>
      if checkRecordwithUpdates id body then some (kind, size) else none
  | _, _ => none

/-- The offsets of mutually recursive functions in their block. -/
def infixEnv (blocksize : Int) : Nat → List (Ident × Lambda) → (Ident → Option RhsKind) →
    Ident → Option RhsKind
  | _, [], env => env
  | i, (id, _) :: rem, env =>
      extend (infixEnv blocksize (i + 1) rem env) id <| RhsKind.RHS_infix blocksize (i * 3)

/-- `Ident.Set.elements (free_variables (Lletrec(decl, lambda_unit)))` -/
def letrecFreeVars (decl : List (Ident × Lambda)) : List Ident :=
  freeVariables (.Lletrec decl lambdaUnit)

mutual

/-- `size_of_lambda` -/
def sizeOfLambda (env : Ident → Option RhsKind) : Lambda → Except GenError RhsKind
  | .Lvar id => .ok ((env id).getD .RHS_nonrec)
  | .Lfunction params body =>
      .ok (.RHS_function (2 + (freeVariables (.Lfunction params body)).length) params.length)
  | .Llet str _ id arg body => do
      match recordCopy str id arg body with
      | some (kind, size) => duprecordSize kind size
      | none => sizeOfLambda (extend env id (← sizeOfLambda env arg)) body
  | .Lletrec bindings body => do
      if bindings.all (fun b => isFunction b.2) then
        let blocksize := bindings.length * 3 - 1 + (letrecFreeVars bindings).length
        sizeOfLambda (infixEnv blocksize 0 bindings env) body
      else sizeOfLambda (← sizeOfDecl env bindings) body
  | .Lprim (.Pmakeblock _ _ _) args _ => .ok (.RHS_block args.length)
  | .Lprim (.Pmakearray .Paddrarray _) args _ => .ok (.RHS_block args.length)
  | .Lprim (.Pmakearray .Pintarray _) args _ => .ok (.RHS_block args.length)
  | .Lprim (.Pmakearray .Pfloatarray _) args _ => .ok (.RHS_floatblock args.length)
  | .Lprim (.Pmakearray .Pgenarray _) _ _ => .ok .RHS_nonrec
  | .Lprim (.Pduprecord kind size) _ _ => duprecordSize kind size
  | .Levent lam _ _ => sizeOfLambda env lam
  | .Lsequence _ lam' => sizeOfLambda env lam'
  | _ => .ok .RHS_nonrec

/-- `List.fold_right (fun (id, e) env -> Ident.add id (size_of_lambda env e) env)` -/
def sizeOfDecl (env : Ident → Option RhsKind) :
    List (Ident × Lambda) → Except GenError (Ident → Option RhsKind)
  | [] => .ok env
  | (id, e) :: rem => do
      let env ← sizeOfDecl env rem
      .ok (extend env id (← sizeOfLambda env e))

end

/-! ## Events -/

/-- `preserve_tailcall_for_prim` -/
def preserveTailcallForPrim : Primitive → Bool
  | Primitive.Popaque | .Psequor | .Psequand => true
  | .Prunstack | .Pperform | .Presume | .Preperform => true
  | _ => false

/-- `ref 1` -/
def newEventRef : Gen EventRef := do
  modify fun s => { s with eventRefs := s.eventRefs + 1 }
  return .weakened (← get).eventRefs

/-- `weaken_event` -/
def weakenEvent (ev : DebugEvent) (cont : Code) : Gen Code :=
  match ev.kind, cont with
  | .Event_after, .Kpush :: .Kevent ⟨kind', info', .Event_none⟩ :: c =>
      match ev.info with
      | .Event_return _ => do
          let repr ← newEventRef
          return .Kevent ⟨.Event_pseudo, ev.info, .Event_parent repr⟩ :: .Kpush ::
            .Kevent ⟨kind', info', .Event_child repr⟩ :: c
      | _ => return cont
  | _, cont => return .Kevent ev :: cont

/-- `add_event` -/
def addEvent (ev : DebugEvent) : Code → Gen Code
  | .Kevent ev' :: cont =>
      match mergeEvents ev ev' with
      | .ok ev => weakenEvent ev cont
      | .error msg => fatalError msg
  | cont => weakenEvent ev cont

/-- `add_pseudo_event` -/
def addPseudoEvent (c : Code) : Gen Code := do
  if (← get).debug then addEvent ⟨.Event_pseudo, .Event_other, .Event_none⟩ c else return c

/-- The `ev_repr` of the event of an `Levent`. -/
def eventRepr (kind : LambdaEventKind) : Option EventRef → EventRepr
  | none => .Event_none
  | some repr =>
      if repr.contents = 1 then
        if kind = .Lev_function then .Event_child repr else .Event_parent repr
      else if kind = .Lev_function then .Event_parent repr
      else .Event_child repr

/-- The `info` of the event after a call. -/
def returnInfo : Lambda → EventInfo
  | .Lapply _ args _ _ => .Event_return args.length
  | .Lsend _ _ _ args _ => .Event_return (args.length + 1)
  | .Lprim _ args _ => .Event_return args.length
  | _ => .Event_other

/-- `preserve_tailcall` -/
def preserveTailcall : Lambda → Bool
  | .Lprim prim _ _ => preserveTailcallForPrim prim
  | _ => true

/-! ## Static exceptions -/

/-- `check_stack` -/
def checkStack (sz : Int) : Gen Unit :=
  modify fun s => { s with maxStackUsed := if s.maxStackUsed < sz then sz else s.maxStackUsed }

/-- `push_static_raise` -/
def pushStaticRaise (i : Int) (lblHandler : Label) (sz : Int) : Gen Unit :=
  modify fun s =>
    { s with szStaticRaises := (i, lblHandler, sz, s.tryBlocks) :: s.szStaticRaises }

/-- `sz_static_raises := List.tl !sz_static_raises` -/
def popStaticRaise : Gen Unit :=
  modify fun s => { s with szStaticRaises := s.szStaticRaises.tail }

/-- `List.assoc` -/
def assoc {α : Type} (i : Int) : List (Int × α) → Option α
  | [] => none
  | (j, a) :: rem => if j = i then some a else assoc i rem

/-- `find_raise_label` -/
def findRaiseLabel (i : Int) : Gen (Label × Int × List Int) := do
  match assoc i (← get).szStaticRaises with
  | some x => return x
  | none => fatalError ("exit(" ++ toString i ++ ") outside appropriated catch")

/-- `tb == tbb` for two lists of `try_blocks`.  One of them is always what is
    left of the other, so they are the same cell when their lengths agree. -/
def sameTryBlocks (tb tbb : List Int) : Bool := tb.length = tbb.length

/-- `code_as_jump` -/
def codeAsJump (l : Lambda) (sz : Int) : Gen (Option Label) :=
  match l with
  | .Lstaticraise i [] => do
      let (label, size, tb) ← findRaiseLabel i
      if sz = size && sameTryBlocks tb (← get).tryBlocks then return some label
      else return none
  | _ => return none

/-- The `loop` of `Lstaticraise`: leave the `try` blocks entered since the
    handler was pushed. -/
def leaveTries (tb : List Int) (size : Int) (cont : Code) : Int → List Int → Gen Code
  | sz, [] => if sameTryBlocks tb [] then return addPop (sz - size) cont else throw .assertFailed
  | sz, trySz :: tbb =>
      if sameTryBlocks tb (trySz :: tbb) then return addPop (sz - size) cont
      else do
        let c ← leaveTries tb size cont trySz tbb
        return addPop (sz - trySz - 4) (.Kpoptrap :: c)

/-! ## Primitives -/

/-- `comp_bint_primitive` -/
def compBintPrimitive (bi : BoxedInteger) (suff : String) (args : List Lambda) : Instruction :=
  let pref :=
    match bi with
    | .Pnativeint => "caml_nativeint_"
    | .Pint32 => "caml_int32_"
    | .Pint64 => "caml_int64_"
  .Kccall (pref ++ suff) args.length

/-- The name of a compile-time constant in its primitive. -/
def constName : CompileTimeConstant → String
  | .Big_endian => "big_endian"
  | .Word_size => "word_size"
  | .Int_size => "int_size"
  | .Max_wosize => "max_wosize"
  | .Ostype_unix => "ostype_unix"
  | .Ostype_win32 => "ostype_win32"
  | .Ostype_cygwin => "ostype_cygwin"
  | .Backend_type => "backend_type"

/-- The instruction of a primitive, if it has one of its own. -/
def primitiveInstr (p : Primitive) (args : List Lambda) : Option Instruction :=
  match p with
  | .Pgetglobal id => some (.Kgetglobal id.uniqueName)
  | .Psetglobal id => some (.Ksetglobal id.uniqueName)
  | .Pintcomp cmp => some (.Kintcomp cmp)
  | .Pcompare_ints => some (.Kccall "caml_int_compare" 2)
  | .Pcompare_floats => some (.Kccall "caml_float_compare" 2)
  | .Pcompare_bints bi => some (compBintPrimitive bi "compare" args)
  | .Pfield n _ _ => some (.Kgetfield n)
  | .Pfield_computed => some .Kgetvectitem
  | .Psetfield n _ _ => some (.Ksetfield n)
  | .Psetfield_computed _ _ => some .Ksetvectitem
  | .Psetfloatfield n _ => some (.Ksetfloatfield n)
  | .Pduprecord _ _ => some (.Kccall "caml_obj_dup" 1)
  | .Pccall p => some (.Kccall p.prim_name p.prim_arity)
  | .Pperform => some .Kperform
  | .Pnegint => some .Knegint
  | .Paddint => some .Kaddint
  | .Psubint => some .Ksubint
  | .Pmulint => some .Kmulint
  | .Pdivint _ => some .Kdivint
  | .Pmodint _ => some .Kmodint
  | .Pandint => some .Kandint
  | .Porint => some .Korint
  | .Pxorint => some .Kxorint
  | .Plslint => some .Klslint
  | .Plsrint => some .Klsrint
  | .Pasrint => some .Kasrint
  | .Poffsetint n => some (.Koffsetint n)
  | .Poffsetref n => some (.Koffsetref n)
  | .Pintoffloat => some (.Kccall "caml_int_of_float" 1)
  | .Pfloatofint => some (.Kccall "caml_float_of_int" 1)
  | .Pnegfloat => some (.Kccall "caml_neg_float" 1)
  | .Pabsfloat => some (.Kccall "caml_abs_float" 1)
  | .Paddfloat => some (.Kccall "caml_add_float" 2)
  | .Psubfloat => some (.Kccall "caml_sub_float" 2)
  | .Pmulfloat => some (.Kccall "caml_mul_float" 2)
  | .Pdivfloat => some (.Kccall "caml_div_float" 2)
  | .Pstringlength => some (.Kccall "caml_ml_string_length" 1)
  | .Pbyteslength => some (.Kccall "caml_ml_bytes_length" 1)
  | .Pstringrefs => some (.Kccall "caml_string_get" 2)
  | .Pbytesrefs => some (.Kccall "caml_bytes_get" 2)
  | .Pbytessets => some (.Kccall "caml_bytes_set" 3)
  | .Pstringrefu => some .Kgetstringchar
  | .Pbytesrefu => some .Kgetbyteschar
  | .Pbytessetu => some .Ksetbyteschar
  | .Pstring_load_16 _ => some (.Kccall "caml_string_get16" 2)
  | .Pstring_load_32 _ => some (.Kccall "caml_string_get32" 2)
  | .Pstring_load_64 _ => some (.Kccall "caml_string_get64" 2)
  | .Pbytes_set_16 _ => some (.Kccall "caml_bytes_set16" 3)
  | .Pbytes_set_32 _ => some (.Kccall "caml_bytes_set32" 3)
  | .Pbytes_set_64 _ => some (.Kccall "caml_bytes_set64" 3)
  | .Pbytes_load_16 _ => some (.Kccall "caml_bytes_get16" 2)
  | .Pbytes_load_32 _ => some (.Kccall "caml_bytes_get32" 2)
  | .Pbytes_load_64 _ => some (.Kccall "caml_bytes_get64" 2)
  | .Parraylength _ => some .Kvectlength
  | .Parrayrefs .Pgenarray => some (.Kccall "caml_array_get" 2)
  | .Parrayrefs .Pfloatarray => some (.Kccall "caml_floatarray_get" 2)
  | .Parrayrefs _ => some (.Kccall "caml_array_get_addr" 2)
  | .Parraysets .Pgenarray => some (.Kccall "caml_array_set" 3)
  | .Parraysets .Pfloatarray => some (.Kccall "caml_floatarray_set" 3)
  | .Parraysets _ => some (.Kccall "caml_array_set_addr" 3)
  | .Parrayrefu .Pgenarray => some (.Kccall "caml_array_unsafe_get" 2)
  | .Parrayrefu .Pfloatarray => some (.Kccall "caml_floatarray_unsafe_get" 2)
  | .Parrayrefu _ => some .Kgetvectitem
  | .Parraysetu .Pgenarray => some (.Kccall "caml_array_unsafe_set" 3)
  | .Parraysetu .Pfloatarray => some (.Kccall "caml_floatarray_unsafe_set" 3)
  | .Parraysetu _ => some .Ksetvectitem
  | .Pctconst c => some (.Kccall ("caml_sys_const_" ++ constName c) 1)
  | .Pisint => some .Kisint
  | .Pisout => some .Kisout
  | .Pbintofint bi => some (compBintPrimitive bi "of_int" args)
  | .Pintofbint bi => some (compBintPrimitive bi "to_int" args)
  | .Pcvtbint .Pint32 .Pnativeint => some (.Kccall "caml_nativeint_of_int32" 1)
  | .Pcvtbint .Pnativeint .Pint32 => some (.Kccall "caml_nativeint_to_int32" 1)
  | .Pcvtbint .Pint32 .Pint64 => some (.Kccall "caml_int64_of_int32" 1)
  | .Pcvtbint .Pint64 .Pint32 => some (.Kccall "caml_int64_to_int32" 1)
  | .Pcvtbint .Pnativeint .Pint64 => some (.Kccall "caml_int64_of_nativeint" 1)
  | .Pcvtbint .Pint64 .Pnativeint => some (.Kccall "caml_int64_to_nativeint" 1)
  | .Pcvtbint _ _ => none
  | .Pnegbint bi => some (compBintPrimitive bi "neg" args)
  | .Paddbint bi => some (compBintPrimitive bi "add" args)
  | .Psubbint bi => some (compBintPrimitive bi "sub" args)
  | .Pmulbint bi => some (compBintPrimitive bi "mul" args)
  | .Pdivbint bi _ => some (compBintPrimitive bi "div" args)
  | .Pmodbint bi _ => some (compBintPrimitive bi "mod" args)
  | .Pandbint bi => some (compBintPrimitive bi "and" args)
  | .Porbint bi => some (compBintPrimitive bi "or" args)
  | .Pxorbint bi => some (compBintPrimitive bi "xor" args)
  | .Plslbint bi => some (compBintPrimitive bi "shift_left" args)
  | .Plsrbint bi => some (compBintPrimitive bi "shift_right_unsigned" args)
  | .Pasrbint bi => some (compBintPrimitive bi "shift_right" args)
  | .Pbintcomp _ .Ceq => some (.Kccall "caml_equal" 2)
  | .Pbintcomp _ .Cne => some (.Kccall "caml_notequal" 2)
  | .Pbintcomp _ .Clt => some (.Kccall "caml_lessthan" 2)
  | .Pbintcomp _ .Cgt => some (.Kccall "caml_greaterthan" 2)
  | .Pbintcomp _ .Cle => some (.Kccall "caml_lessequal" 2)
  | .Pbintcomp _ .Cge => some (.Kccall "caml_greaterequal" 2)
  | .Pbigarrayref _ n _ _ => some (.Kccall ("caml_ba_get_" ++ toString n) (n + 1))
  | .Pbigarrayset _ n _ _ => some (.Kccall ("caml_ba_set_" ++ toString n) (n + 2))
  | .Pbigarraydim n => some (.Kccall ("caml_ba_dim_" ++ toString n) 1)
  | .Pbigstring_load_16 _ => some (.Kccall "caml_ba_uint8_get16" 2)
  | .Pbigstring_load_32 _ => some (.Kccall "caml_ba_uint8_get32" 2)
  | .Pbigstring_load_64 _ => some (.Kccall "caml_ba_uint8_get64" 2)
  | .Pbigstring_set_16 _ => some (.Kccall "caml_ba_uint8_set16" 3)
  | .Pbigstring_set_32 _ => some (.Kccall "caml_ba_uint8_set32" 3)
  | .Pbigstring_set_64 _ => some (.Kccall "caml_ba_uint8_set64" 3)
  | .Pbswap16 => some (.Kccall "caml_bswap16" 1)
  | .Pbbswap bi => some (compBintPrimitive bi "bswap" args)
  | .Pint_as_pointer => some (.Kccall "caml_int_as_pointer" 1)
  | .Pbytes_to_string => some (.Kccall "caml_string_of_bytes" 1)
  | .Pbytes_of_string => some (.Kccall "caml_bytes_of_string" 1)
  | .Patomic_load _ => some (.Kccall "caml_atomic_load" 1)
  | .Patomic_exchange => some (.Kccall "caml_atomic_exchange" 2)
  | .Patomic_cas => some (.Kccall "caml_atomic_cas" 3)
  | .Patomic_fetch_add => some (.Kccall "caml_atomic_fetch_add" 2)
  | .Pdls_get => some (.Kccall "caml_domain_dls_get" 1)
  | .Prunstack | .Presume | .Preperform | .Pignore | Primitive.Popaque | .Pnot | .Psequand
  | .Psequor | .Praise _ | .Pmakearray _ _ | .Pduparray _ _ | .Pfloatcomp _
  | .Pmakeblock _ _ _ | .Pfloatfield _ => none

/-- `comp_primitive` -/
def compPrimitive (p : Primitive) (sz : Int) (args : List Lambda) : Gen Instruction := do
  checkStack sz
  match primitiveInstr p args with
  | some instr =>
      if p = .Pperform then checkStack (sz + 4)
      return instr
  | none => fatalError "Bytegen.comp_primitive"

/-- `swap_integer_comparison` -/
def swapIntegerComparison : IntegerComparison → IntegerComparison
  | .Ceq => .Ceq
  | .Cne => .Cne
  | .Clt => .Cgt
  | .Cle => .Cge
  | .Cgt => .Clt
  | .Cge => .Cle

/-- The instructions of a comparison of floats. -/
def floatcompCont (cmp : FloatComparison) (cont : Code) : Code :=
  match cmp with
  | .CFeq => .Kccall "caml_eq_float" 2 :: cont
  | .CFneq => .Kccall "caml_neq_float" 2 :: cont
  | .CFlt => .Kccall "caml_lt_float" 2 :: cont
  | .CFnlt => .Kccall "caml_lt_float" 2 :: .Kboolnot :: cont
  | .CFgt => .Kccall "caml_gt_float" 2 :: cont
  | .CFngt => .Kccall "caml_gt_float" 2 :: .Kboolnot :: cont
  | .CFle => .Kccall "caml_le_float" 2 :: cont
  | .CFnle => .Kccall "caml_le_float" 2 :: .Kboolnot :: cont
  | .CFge => .Kccall "caml_ge_float" 2 :: cont
  | .CFnge => .Kccall "caml_ge_float" 2 :: .Kboolnot :: cont

/-! ## The store of the actions of a switch -/

/-- The store of `Switch.Store`: the keys with the index of their action, and
    the actions in the order of their indices. -/
structure ActStore where
  map : List (Lambda × Nat)
  acts : List Lambda

/-- `mk_store` -/
def mkStore : ActStore := ⟨[], []⟩

/-- `act_store ()` -/
def actStore (st : ActStore) (act : Lambda) : Gen (Nat × ActStore) :=
  match makeKey act with
  | .ok (some key) =>
      match st.map.find? (fun m => sameLambda key m.1) with
      | some m => return (m.2, st)
      | none => return (st.acts.length, ⟨(key, st.acts.length) :: st.map, st.acts ++ [act]⟩)
  | .ok none => return (st.acts.length, { st with acts := st.acts ++ [act] })
  | .error msg => fatalError msg

/-- The default action has index 0. -/
def storeDefault (failaction : Option Lambda) : Gen ActStore :=
  match failaction with
  | some fail => do
      let (_, st) ← actStore mkStore fail
      return st
  | none => return mkStore

/-- `List.iter (fun (n, act) -> acts.(n) <- store.act_store () act)` -/
def storeCases : List (Nat × Lambda) → List Nat → ActStore → Gen (List Nat × ActStore)
  | [], idx, st => return (idx, st)
  | (n, act) :: rem, idx, st => do
      let (i, st) ← actStore st act
      if n < idx.length then storeCases rem (idx.set n i) st else throw .invalidArgument

/-- `lbls.(act.(i))` for every `i`. -/
def labelVector (lbls : List Label) : List Nat → Gen (List Label)
  | [] => return []
  | i :: rem => do
      let rem ← labelVector lbls rem
      match lbls[i]? with
      | some lbl => return lbl :: rem
      | none => throw .invalidArgument

/-! ## Compilation of a term -/

/-- The type of `comp_expr`. -/
abbrev CompExpr := CompilationEnv → Lambda → Int → Code → Gen Code

section

variable (rec : CompExpr) (env : CompilationEnv)

/-- `comp_expr_list` -/
def compExprList : List Lambda → Int → Code → Gen Code
  | [], _, cont => return cont
  | [exp], sz, cont => rec env exp sz cont
  | exp :: rem, sz, cont => do rec env exp sz (.Kpush :: (← compExprList rem (sz + 1) cont))

/-- `comp_args` -/
def compArgs (argl : List Lambda) (sz : Int) (cont : Code) : Gen Code :=
  compExprList rec env argl.reverse sz cont

/-- `comp_expr_list_assign` -/
def compExprListAssign : List Lambda → Int → Int → Code → Gen Code
  | [], _, _, cont => return cont
  | exp :: rem, sz, pos, cont => do
      rec env exp sz (.Kassign (sz - pos) :: (← compExprListAssign rem sz (pos - 1) cont))

/-- `comp_exit_args` -/
def compExitArgs (argl : List Lambda) (sz pos : Int) (cont : Code) : Gen Code :=
  compExprListAssign rec env argl.reverse sz pos cont

/-- The code behind the condition of `comp_binary_test`. -/
def testCont (ifso ifnot : Lambda) (sz : Int) (cont : Code) : Gen Code := do
  if isUnit ifnot then
    let (lblEnd, cont1) ← labelCode cont
    return .Kstrictbranchifnot lblEnd :: (← rec env ifso sz cont1)
  else
    match ← codeAsJump ifso sz with
    | some label => return .Kbranchif label :: (← rec env ifnot sz cont)
    | none =>
        match ← codeAsJump ifnot sz with
        | some label => return .Kbranchifnot label :: (← rec env ifso sz cont)
        | none => do
            let (branchEnd, cont1) ← makeBranch cont
            let (lblNot, cont2) ← labelCode (← rec env ifnot sz cont1)
            return .Kbranchifnot lblNot :: (← rec env ifso sz (branchEnd :: cont2))

/-- `comp_binary_test` -/
def compBinaryTest (cond ifso ifnot : Lambda) (sz : Int) (cont : Code) : Gen Code := do
  rec env cond sz (← testCont rec env ifso ifnot sz cont)

/-- The case `Lapply` of `comp_expr`. -/
def compApply (func : Lambda) (args : List Lambda) (sz : Int) (cont : Code) : Gen Code := do
  let nargs : Int := args.length
  if isTailcall cont then
    let c ← rec env func (sz + nargs) (.Kappterm nargs (sz + nargs) :: discardDeadCode cont)
    compArgs rec env args sz (.Kpush :: c)
  else if nargs < 4 then
    let c ← rec env func (sz + nargs) (.Kapply nargs :: cont)
    compArgs rec env args sz (.Kpush :: c)
  else
    let (lbl, cont1) ← labelCode cont
    let c ← rec env func (sz + 3 + nargs) (.Kapply nargs :: cont1)
    return .Kpush_retaddr lbl :: (← compArgs rec env args (sz + 3) (.Kpush :: c))

/-- The instruction that looks a method up, and the arguments it is given. -/
def getMethod (kind : MethKind) (met obj : Lambda) (args : List Lambda) :
    Instruction × List Lambda :=
  if kind = .Self then (.Kgetmethod, met :: obj :: args)
  else
    match met with
    | .Lconst (.Const_base (.Const_int n)) => (.Kgetpubmet n, obj :: args)
    | met => (.Kgetdynmet, met :: obj :: args)

/-- The case `Lsend` of `comp_expr`. -/
def compSend (kind : MethKind) (met obj : Lambda) (args : List Lambda) (sz : Int) (cont : Code) :
    Gen Code := do
  assertGen (kind ≠ .Cached)
  let nargs : Int := args.length + 1
  let (getmethod, args') := getMethod kind met obj args
  if isTailcall cont then
    compArgs rec env args' sz
      (getmethod :: .Kappterm nargs (sz + nargs) :: discardDeadCode cont)
  else if nargs < 4 then
    compArgs rec env args' sz (getmethod :: .Kapply nargs :: cont)
  else
    let (lbl, cont1) ← labelCode cont
    return .Kpush_retaddr lbl ::
      (← compArgs rec env args' (sz + 3) (getmethod :: .Kapply nargs :: cont1))

/-- `Stack.push to_compile functions_to_compile` -/
def pushFunction (tc : FunctionToCompile) : Gen Unit :=
  modify fun s => { s with functionsToCompile := tc :: s.functionsToCompile }

/-- The case `Lfunction` of `comp_expr`. -/
def compFunctionExpr (params : List Ident) (body : Lambda) (sz : Int) (cont : Code) :
    Gen Code := do
  let cont ← addPseudoEvent cont
  let lbl ← newLabel
  let fv := freeVariables (.Lfunction params body)
  pushFunction
    { params := params, body := body, label := lbl, freeVars := fv,
      numDefs := 1, recVars := [], recPos := 0 }
  compArgs rec env (fv.map .Lvar) sz (.Kclosure lbl fv.length :: cont)

/-- `comp_fun` -/
def compFun (fv recIdents : List Ident) (ndecl : Nat) :
    Nat → List (Ident × Lambda) → Gen (List Label)
  | _, [] => return []
  | pos, (_, .Lfunction params body) :: rem => do
      let lbl ← newLabel
      pushFunction
        { params := params, body := body, label := lbl, freeVars := fv,
          numDefs := ndecl, recVars := recIdents, recPos := pos }
      return lbl :: (← compFun fv recIdents ndecl (pos + 1) rem)
  | _, _ => throw .assertFailed

/-- The case `Lletrec` of `comp_expr`, when every definition is a function. -/
def compLetrecFunctions (decl : List (Ident × Lambda)) (body : Lambda) (sz : Int) (cont : Code) :
    Gen Code := do
  let ndecl := decl.length
  let fv := letrecFreeVars decl
  let recIdents := decl.map Prod.fst
  let lbls ← compFun fv recIdents ndecl 0 decl
  let c ← rec (addVars recIdents (sz + 1) env) body (sz + ndecl) (addPop ndecl cont)
  compArgs rec env (fv.map .Lvar) sz (.Kclosurerec lbls fv.length :: c)

/-- `Kconst(Const_base(Const_int n))` -/
def constInt (n : Int) : Instruction := .Kconst (.Const_base (.Const_int n))

/-- `List.map (fun (id, exp) -> (id, exp, size_of_lambda Ident.empty exp))` -/
def declSizes : List (Ident × Lambda) → Gen (List (Ident × Lambda × RhsKind))
  | [] => return []
  | (id, exp) :: rem => do
      let kind ← (sizeOfLambda (fun _ => none) exp : Except GenError RhsKind)
      return (id, exp, kind) :: (← declSizes rem)

/-- `comp_rec`, before the body of the `let rec`. -/
def compRec (body : Gen Code) (newEnv : CompilationEnv) (sz : Int) :
    Int → List (Ident × Lambda × RhsKind) → Gen Code
  | _, [] => body
  | i, (_, _, .RHS_nonrec) :: rem => compRec body newEnv sz (i - 1) rem
  | i, (_, exp, _) :: rem => do
      rec newEnv exp sz (.Kpush :: .Kacc i :: .Kccall "caml_update_dummy" 2 ::
        (← compRec body newEnv sz (i - 1) rem))

/-- `comp_nonrec`, before `k`. -/
def compNonrec (k : Gen Code) (newEnv : CompilationEnv) (sz : Int) :
    Int → List (Ident × Lambda × RhsKind) → Gen Code
  | _, [] => k
  | i, (_, exp, .RHS_nonrec) :: rem => do
      rec newEnv exp sz (.Kassign (i - 1) :: (← compNonrec k newEnv sz (i - 1) rem))
  | i, _ :: rem => compNonrec k newEnv sz (i - 1) rem

/-- What `comp_init` pushes for a definition. -/
def initCode : RhsKind → Code
  | .RHS_floatblock blocksize =>
      [constInt blocksize, .Kccall "caml_alloc_dummy_float" 1, .Kpush]
  | .RHS_block blocksize => [constInt blocksize, .Kccall "caml_alloc_dummy" 1, .Kpush]
  | RhsKind.RHS_infix blocksize offset =>
      [constInt offset, .Kpush, constInt blocksize, .Kccall "caml_alloc_dummy_infix" 2, .Kpush]
  | .RHS_function blocksize arity =>
      [constInt arity, .Kpush, constInt blocksize, .Kccall "caml_alloc_dummy_function" 2, .Kpush]
  | .RHS_nonrec => [constInt 0, .Kpush]

/-- `comp_init`, before `k`. -/
def compInit (k : CompilationEnv → Int → Gen Code) :
    CompilationEnv → Int → List (Ident × Lambda × RhsKind) → Gen Code
  | newEnv, sz, [] => k newEnv sz
  | newEnv, sz, (id, _, kind) :: rem => do
      return initCode kind ++ (← compInit k (addVar id (sz + 1) newEnv) (sz + 1) rem)

/-- The case `Lletrec` of `comp_expr` for other definitions. -/
def compLetrecGeneral (decl : List (Ident × Lambda)) (body : Lambda) (sz : Int) (cont : Code) :
    Gen Code := do
  let ndecl := decl.length
  let sizes ← declSizes decl
  compInit (fun newEnv sz =>
      compNonrec rec (compRec rec (rec newEnv body sz (addPop ndecl cont)) newEnv sz ndecl sizes)
        newEnv sz ndecl sizes)
    env sz sizes

/-- The case of a primitive that has an instruction. -/
def compPlainPrim (p : Primitive) (args : List Lambda) (sz : Int) (cont : Code) : Gen Code := do
  let nargs : Int := (args.length : Int) - 1
  compArgs rec env args sz ((← compPrimitive p (sz + nargs - 1) args) :: cont)

/-- The case `Pmakearray`. -/
def compMakearray (kind : ArrayKind) (args : List Lambda) (sz : Int) (cont : Code) :
    Gen Code := do
  let cont ← addPseudoEvent cont
  match kind with
  | .Pintarray => compArgs rec env args sz (.Kmakeblock args.length 0 :: cont)
  | .Paddrarray => compArgs rec env args sz (.Kmakeblock args.length 0 :: cont)
  | .Pfloatarray => compArgs rec env args sz (.Kmakefloatblock args.length :: cont)
  | .Pgenarray =>
      if args.isEmpty then return .Kmakeblock 0 0 :: cont
      else
        compArgs rec env args sz
          (.Kmakeblock args.length 0 :: .Kccall "caml_make_array" 1 :: cont)

/-- The case `Psequand`. -/
def compSequand (exp1 exp2 : Lambda) (sz : Int) (cont : Code) : Gen Code :=
  match cont with
  | .Kbranchifnot lbl :: _ => do
      rec env exp1 sz (.Kbranchifnot lbl :: (← rec env exp2 sz cont))
  | .Kbranchif lbl :: cont1 => do
      let (lbl2, cont2) ← labelCode cont1
      rec env exp1 sz (.Kbranchifnot lbl2 :: (← rec env exp2 sz (.Kbranchif lbl :: cont2)))
  | _ => do
      let (lbl, cont1) ← labelCode cont
      rec env exp1 sz (.Kstrictbranchifnot lbl :: (← rec env exp2 sz cont1))

/-- The case `Psequor`. -/
def compSequor (exp1 exp2 : Lambda) (sz : Int) (cont : Code) : Gen Code :=
  match cont with
  | .Kbranchif lbl :: _ => do
      rec env exp1 sz (.Kbranchif lbl :: (← rec env exp2 sz cont))
  | .Kbranchifnot lbl :: cont1 => do
      let (lbl2, cont2) ← labelCode cont1
      rec env exp1 sz (.Kbranchif lbl2 :: (← rec env exp2 sz (.Kbranchifnot lbl :: cont2)))
  | _ => do
      let (lbl, cont1) ← labelCode cont
      rec env exp1 sz (.Kstrictbranchif lbl :: (← rec env exp2 sz cont1))

/-- The cases `Presume` and `Prunstack`. -/
def compResume (args : List Lambda) (sz : Int) (cont : Code) : Gen Code := do
  let nargs : Int := (args.length : Int) - 1
  assertGen (nargs = 2)
  checkStack (sz + 4)
  if isTailcall cont then
    compArgs rec env args sz (.Kresumeterm (sz + nargs) :: discardDeadCode cont)
  else compArgs rec env args sz (.Kresume :: cont)

/-- The case `Preperform`. -/
def compReperform (args : List Lambda) (sz : Int) (cont : Code) : Gen Code := do
  let nargs : Int := (args.length : Int) - 1
  assertGen (nargs = 2)
  checkStack (sz + 3)
  if isTailcall cont then
    compArgs rec env args sz (.Kreperformterm (sz + nargs) :: discardDeadCode cont)
  else fatalError "Reperform used in non-tail position"

/-- The cases `Lprim` of `comp_expr`. -/
def compPrim (p : Primitive) (args : List Lambda) (loc : ScopedLocation) (sz : Int)
    (cont : Code) : Gen Code :=
  match p, args with
  | Primitive.Popaque, [arg] => rec env arg sz cont
  | .Pignore, [arg] => rec env arg sz (addConstUnit cont)
  | .Pnot, [arg] => rec env arg sz (notCont cont)
  | .Psequand, [exp1, exp2] => compSequand rec env exp1 exp2 sz cont
  | .Psequor, [exp1, exp2] => compSequor rec env exp1 exp2 sz cont
  | .Praise k, [arg] => rec env arg sz (.Kraise k :: discardDeadCode cont)
  | .Paddint, [arg, .Lconst (.Const_base (.Const_int n))] =>
      if isImmed n then rec env arg sz (.Koffsetint n :: cont)
      else compPlainPrim rec env .Paddint [arg, .Lconst (.Const_base (.Const_int n))] sz cont
  | .Psubint, [arg, .Lconst (.Const_base (.Const_int n))] =>
      if isImmed (-n) then rec env arg sz (.Koffsetint (-n) :: cont)
      else compPlainPrim rec env .Psubint [arg, .Lconst (.Const_base (.Const_int n))] sz cont
  | .Poffsetint n, [arg] =>
      if isImmed n then compPlainPrim rec env (.Poffsetint n) [arg] sz cont
      else rec env arg sz (.Kpush :: constInt n :: .Kaddint :: cont)
  | .Pmakearray kind _, args => compMakearray rec env kind args sz cont
  | .Presume, args => compResume rec env args sz cont
  | .Prunstack, args => compResume rec env args sz cont
  | .Preperform, args => compReperform rec env args sz cont
  | .Pduparray kind flag, [.Lprim (.Pmakearray kind' _) args _] => do
      assertGen (kind = kind')
      rec env (.Lprim (.Pmakearray kind flag) args loc) sz cont
  | .Pduparray _ _, [arg] =>
      rec env (.Lprim (.Pccall (simple "caml_obj_dup" 1 true)) [arg] loc) sz cont
  | .Pduparray _ _, _ =>
      fatalError "Bytegen.comp_expr: Pduparray takes exactly one arg"
  | .Pintcomp c, [arg, .Lconst k] =>
      compPlainPrim rec env (.Pintcomp (swapIntegerComparison c)) [.Lconst k, arg] sz cont
  | .Pfloatcomp cmp, args => compArgs rec env args sz (floatcompCont cmp cont)
  | .Pmakeblock tag _ _, args => do
      let cont ← addPseudoEvent cont
      compArgs rec env args sz (.Kmakeblock args.length tag :: cont)
  | .Pfloatfield n, args => do
      let cont ← addPseudoEvent cont
      compArgs rec env args sz (.Kgetfloatfield n :: cont)
  | p, args => compPlainPrim rec env p args sz cont

/-- The case `Lstaticcatch` of `comp_expr`, before the handler is popped. -/
def catchCode (body : Lambda) (i : Int) (vars : List Ident) (handler : Lambda) (sz : Int)
    (cont : Code) : Gen Code := do
  let nvars := vars.length
  let (branch1, cont1) ← makeBranch cont
  match vars with
  | [var] => do
      -- the argument comes in the accumulator
      let (lblHandler, cont2) ← labelCode
        (.Kpush :: (← rec (addVar var (sz + 1) env) handler (sz + 1) (addPop 1 cont1)))
      pushStaticRaise i lblHandler sz
      rec env body sz (branch1 :: cont2)
  | vars => do
      let (lblHandler, cont2) ← labelCode
        (← rec (addVars vars (sz + 1) env) handler (sz + nvars) (addPop nvars cont1))
      pushStaticRaise i lblHandler (sz + nvars)
      return pushDummies nvars
        (← rec env body (sz + nvars) (addPop nvars (branch1 :: cont2)))

/-- The case `Lstaticcatch` of `comp_expr`. -/
def compStaticcatch (body : Lambda) (i : Int) (vars : List Ident) (handler : Lambda) (sz : Int)
    (cont : Code) : Gen Code := do
  let r ← catchCode rec env body i vars handler sz cont
  popStaticRaise
  return r

/-- The case `Lstaticraise` of `comp_expr`. -/
def compStaticraise (i : Int) (args : List Lambda) (sz : Int) (cont : Code) : Gen Code := do
  let cont := discardDeadCode cont
  let (label, size, tb) ← findRaiseLabel i
  let cont := branchTo label cont
  let cont ← leaveTries tb size cont sz (← get).tryBlocks
  match args with
  | [arg] => rec env arg sz cont
  | args => compExitArgs rec env args sz size cont

/-- The case `Ltrywith` of `comp_expr`. -/
def compTrywith (body : Lambda) (id : Ident) (handler : Lambda) (sz : Int) (cont : Code) :
    Gen Code := do
  let (branch1, cont1) ← makeBranch cont
  let lblHandler ← newLabel
  let bodyCont := .Kpoptrap :: branch1 :: .Klabel lblHandler :: .Kpush ::
    (← rec (addVar id (sz + 1) env) handler (sz + 1) (addPop 1 cont1))
  modify fun s => { s with tryBlocks := sz :: s.tryBlocks }
  let l ← rec env body (sz + 4) bodyCont
  modify fun s => { s with tryBlocks := s.tryBlocks.tail }
  return .Kpushtrap lblHandler :: l

/-- The case `Lwhile` of `comp_expr`. -/
def compWhile (cond body : Lambda) (sz : Int) (cont : Code) : Gen Code := do
  let lblLoop ← newLabel
  let lblTest ← newLabel
  let test ← rec env cond sz (.Kbranchif lblLoop :: addConstUnit cont)
  return .Kbranch lblTest :: .Klabel lblLoop :: .Kcheck_signals ::
    (← rec env body sz (.Klabel lblTest :: test))

/-- The case `Lfor` of `comp_expr`. -/
def compFor (param : Ident) (start stop : Lambda) (dir : DirectionFlag) (body : Lambda)
    (sz : Int) (cont : Code) : Gen Code := do
  let lblLoop ← newLabel
  let lblExit ← newLabel
  let loop ← rec (addVar param (sz + 1) env) body (sz + 2)
    (.Kacc 1 :: .Kpush :: .Koffsetint (forOffset dir) :: .Kassign 2 :: .Kacc 1 :: .Kintcomp .Cne ::
      .Kbranchif lblLoop :: .Klabel lblExit :: addConstUnit (addPop 2 cont))
  let c ← rec env stop (sz + 1)
    (.Kpush :: .Kpush :: .Kacc 2 :: .Kintcomp (forExit dir) :: .Kbranchif lblExit ::
      .Klabel lblLoop :: .Kcheck_signals :: loop)
  rec env start sz (.Kpush :: c)

/-- Compile and label the actions of a switch, the last one first. -/
def compActions (sz : Int) (branch : Instruction) : List Lambda → Code → Gen (List Label × Code)
  | [], c => return ([], c)
  | act :: acts, c => do
      let (lbls, c) ← compActions sz branch acts c
      let (lbl, c1) ← labelCode (← rec env act sz (branch :: c))
      return (lbl :: lbls, discardDeadCode c1)

/-- `Matching.expand_stringswitch`, with the counters it uses. -/
def expandSwitch (loc : ScopedLocation) (arg : Lambda) (sw : List (String × Lambda))
    (d : Option Lambda) : Gen Lambda := do
  match expandStringswitch loc arg sw d (← get).counters with
  | some (exp, counters) =>
      modify fun s => { s with counters := counters }
      return exp
  | none => throw .assertFailed

/-- The case `Lswitch` of `comp_expr`. -/
def compSwitch (arg : Lambda) (numconsts : Nat) (consts : List (Nat × Lambda))
    (numblocks : Nat) (blocks : List (Nat × Lambda)) (failaction : Option Lambda) (sz : Int)
    (cont : Code) : Gen Code := do
  let (branch, cont1) ← makeBranch cont
  let st ← storeDefault failaction
  let (actConsts, st) ← storeCases consts (List.replicate numconsts 0) st
  let (actBlocks, st) ← storeCases blocks (List.replicate numblocks 0) st
  let (lbls, c) ← compActions rec env sz branch st.acts (discardDeadCode cont1)
  let lblBlocks ← labelVector lbls actBlocks
  let lblConsts ← labelVector lbls actConsts
  rec env arg sz (.Kswitch lblConsts lblBlocks :: c)

/-- The cases `Lvar` and `Lmutvar` of `comp_expr`. -/
def compVar (id : Ident) (sz : Int) (cont : Code) : Gen Code :=
  match env.ceStack id with
  | some pos => return .Kacc (sz - pos) :: cont
  | none =>
      match env.ceHeap id with
      | some pos => return .Kenvacc pos :: cont
      | none =>
          match env.ceRec id with
          | some ofs => return .Koffsetclosure ofs :: cont
          | none => fatalError ("Bytegen.comp_expr: var " ++ id.uniqueName)

/-- The case `Lassign` of `comp_expr`. -/
def compAssign (id : Ident) (expr : Lambda) (sz : Int) (cont : Code) : Gen Code :=
  match env.ceStack id with
  | some pos => rec env expr sz (.Kassign (sz - pos) :: cont)
  | none => fatalError "Bytegen.comp_expr: assign"

/-- The cases `Llet` and `Lmutlet` of `comp_expr`. -/
def compLet (id : Ident) (arg body : Lambda) (sz : Int) (cont : Code) : Gen Code := do
  let c ← rec (addVar id (sz + 1) env) body (sz + 1) (addPop 1 cont)
  rec env arg sz (.Kpush :: c)

/-- The case `Levent` of `comp_expr`. -/
def compEvent (lam : Lambda) (kind : LambdaEventKind) (repr : Option EventRef) (sz : Int)
    (cont : Code) : Gen Code :=
  match kind with
  | .Lev_before => do
      let c ← rec env lam sz cont
      addEvent ⟨.Event_before, .Event_other, eventRepr .Lev_before repr⟩ c
  | .Lev_function => do
      let c ← rec env lam sz cont
      addEvent ⟨.Event_pseudo, .Event_function, eventRepr .Lev_function repr⟩ c
  | .Lev_pseudo => do
      let c ← rec env lam sz cont
      addEvent ⟨.Event_pseudo, .Event_other, eventRepr .Lev_pseudo repr⟩ c
  | .Lev_after =>
      -- don't destroy tail call opt
      if preserveTailcall lam && isTailcall cont then rec env lam sz cont
      else do
        let cont1 ← addEvent ⟨.Event_after, returnInfo lam, eventRepr .Lev_after repr⟩ cont
        rec env lam sz cont1
  | .Lev_module_definition => rec env lam sz cont

/-- `comp_expr`, one level of it. -/
def compExprStep (exp : Lambda) (sz : Int) (cont : Code) : Gen Code := do
  checkStack sz
  match exp with
  | .Lvar id => compVar env id sz cont
  | .Lmutvar id => compVar env id sz cont
  | .Lconst cst => return .Kconst cst :: cont
  | .Lapply func args _ _ => compApply rec env func args sz cont
  | .Lsend kind met obj args _ => compSend rec env kind met obj args sz cont
  | .Lfunction params body => compFunctionExpr rec env params body sz cont
  | .Llet _ _ id arg body => compLet rec env id arg body sz cont
  | .Lmutlet _ id arg body => compLet rec env id arg body sz cont
  | .Lletrec decl body =>
      if decl.all (fun d => isFunction d.2) then compLetrecFunctions rec env decl body sz cont
      else compLetrecGeneral rec env decl body sz cont
  | .Lprim p args loc => compPrim rec env p args loc sz cont
  | .Lstaticcatch body i vars handler =>
      compStaticcatch rec env body i (vars.map Prod.fst) handler sz cont
  | .Lstaticraise i args => compStaticraise rec env i args sz cont
  | .Ltrywith body id handler => compTrywith rec env body id handler sz cont
  | .Lifthenelse cond ifso ifnot => compBinaryTest rec env cond ifso ifnot sz cont
  | .Lsequence exp1 exp2 => do rec env exp1 sz (← rec env exp2 sz cont)
  | .Lwhile cond body => compWhile rec env cond body sz cont
  | .Lfor param start stop dir body => compFor rec env param start stop dir body sz cont
  | .Lswitch arg numconsts consts numblocks blocks failaction _ =>
      compSwitch rec env arg numconsts consts numblocks blocks failaction sz cont
  | .Lstringswitch arg strings default loc => do
      rec env (← expandSwitch loc arg strings default) sz cont
  | .Lassign id expr => compAssign rec env id expr sz cont
  | .Levent lam kind repr => compEvent rec env lam kind repr sz cont
  | .Lifused _ exp => rec env exp sz cont

end

/-- `comp_expr`, for terms at most `n` deep. -/
def compExpr : Nat → CompExpr
  | 0, _, _, _, _ => throw .outOfFuel
  | n + 1, env, exp, sz, cont => compExprStep (compExpr n) env exp sz cont

/-! ## Blocks, functions and compilation units -/

/-- `Config.stack_threshold` -/
def stackThreshold : Int := 16

/-- `Config.stack_safety_margin` -/
def stackSafetyMargin : Int := 60

/-- `comp_block` -/
def compBlock (n : Nat) (env : CompilationEnv) (exp : Lambda) (sz : Int) (cont : Code) :
    Gen Code := do
  modify fun s => { s with maxStackUsed := 0 }
  let code ← compExpr n env exp sz cont
  let usedSafe := (← get).maxStackUsed + stackSafetyMargin
  if stackThreshold < usedSafe then
    return constInt usedSafe :: .Kccall "caml_ensure_stack_capacity" 1 :: code
  else return code

/-- `positions` -/
def positions (delta : Int) : Int → List Ident → Ident → Option Int
  | _, [] => fun _ => none
  | pos, id :: rem => extend (positions delta (pos + delta) rem) id pos

/-- The environment of a function body. -/
def functionEnv (tc : FunctionToCompile) : CompilationEnv where
  ceStack := positions (-1) tc.params.length tc.params
  ceHeap := positions 1 (3 * (tc.numDefs - tc.recPos) - 1) tc.freeVars
  ceRec := positions 3 (-3 * tc.recPos) tc.recVars

/-- `comp_function` -/
def compFunction (n : Nat) (tc : FunctionToCompile) (cont : Code) : Gen Code := do
  let arity := tc.params.length
  let cont ← compBlock n (functionEnv tc) tc.body arity (.Kreturn arity :: cont)
  if 1 < arity then
    return .Krestart :: .Klabel tc.label :: .Kgrab ((arity : Int) - 1) :: cont
  else return .Klabel tc.label :: cont

/-- `comp_remainder`, for at most `k` functions. -/
def compRemainder (n : Nat) : Nat → Code → Gen Code
  | 0, _ => throw .outOfFuel
  | k + 1, c => do
      match (← get).functionsToCompile with
      | [] => return c
      | tc :: rem => do
          modify fun s => { s with functionsToCompile := rem }
          compRemainder n k (← compFunction n tc c)

/-- The references at the start of a unit: `Clflags.debug` and the counters of
    `Ident` and `Lambda` are as they happen to be. -/
def initialState (debug : Bool) (counters : Counters) : GenState where
  labelCounter := 0
  szStaticRaises := []
  tryBlocks := []
  functionsToCompile := []
  maxStackUsed := 0
  debug := debug
  counters := counters
  eventRefs := 0

/-- The body of `compile_implementation`. -/
def compImplementation (n : Nat) (expr : Lambda) : Gen Code := do
  let initCode ← compBlock n emptyEnv expr 0 []
  if 0 < (← get).functionsToCompile.length then
    let lblInit ← newLabel
    return .Kbranch lblInit :: (← compRemainder n (n + 1) (.Klabel lblInit :: initCode))
  else return initCode

/-- `compile_implementation` -/
def compileImplementation (debug : Bool) (counters : Counters) (expr : Lambda) :
    Except GenError Code :=
  (compImplementation (nodes expr) expr).run' (initialState debug counters)

end CamlBytegen
