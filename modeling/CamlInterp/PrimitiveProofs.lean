import CamlInterp.EmitProofs

/-! # Identifiers, locations and primitives

    What the terms of `lambda/lambda.ml` are made of, besides terms: identifiers
    and sets of them, places in the source, value kinds and attributes, and the
    type `primitive`.  The code generator looks at little of it, but the keys of
    `make_key` are compared with all of it. -/

namespace CamlLambda

open CamlEmit

/-! ## Identifiers -/

/-- `Ident.t`; the scope of a scoped identifier is dropped, since its stamp
    already belongs to it alone. -/
inductive Ident where
  | Local (name : String) (stamp : Int)
  | Scoped (name : String) (stamp : Int)
  | Global (name : String)
  | Predef (name : String) (stamp : Int)
deriving DecidableEq, Repr

namespace Ident

/-- `Ident.same` -/
def same : Ident → Ident → Bool
  | Local _ s1, Local _ s2 => s1 = s2
  | Scoped _ s1, Scoped _ s2 => s1 = s2
  | Predef _ s1, Predef _ s2 => s1 = s2
  | Global n1, Global n2 => n1 = n2
  | _, _ => false

/-- `Ident.name` -/
def name : Ident → String
  | Local name _ => name
  | Scoped name _ => name
  | Global name => name
  | Predef name _ => name

/-- `Ident.unique_name` -/
def uniqueName : Ident → String
  | Local name stamp => name ++ "_" ++ toString stamp
  | Scoped name stamp => name ++ "_" ++ toString stamp
  | Global name => name ++ "_0"
  | Predef name _ => name

/-- The stamp first, then the name. -/
def compareStamped (name1 : String) (stamp1 : Int) (name2 : String) (stamp2 : Int) : Ordering :=
  (compare stamp1 stamp2).then (compare name1 name2)

/-- `Ident.compare` -/
def compareIdent : Ident → Ident → Ordering
  | Local n1 s1, Local n2 s2 => compareStamped n1 s1 n2 s2
  | Local _ _, _ => .gt
  | _, Local _ _ => .lt
  | Scoped n1 s1, Scoped n2 s2 => compareStamped n1 s1 n2 s2
  | Scoped _ _, _ => .gt
  | _, Scoped _ _ => .lt
  | Global n1, Global n2 => compare n1 n2
  | Global _, _ => .gt
  | _, Global _ => .lt
  | Predef n1 s1, Predef n2 s2 => compareStamped n1 s1 n2 s2

end Ident

/-! ## Sets of identifiers -/

/-- `Ident.Set.t`: its elements in increasing order. -/
abbrev IdentSet := List Ident

namespace IdentSet

/-- `Ident.Set.add` -/
def add (x : Ident) : IdentSet → IdentSet
  | [] => [x]
  | y :: s =>
      if x = y then y :: s
      else if (x.compareIdent y).isLT then x :: y :: s
      else y :: add x s

/-- `Ident.Set.union` -/
def union (s t : IdentSet) : IdentSet := s.foldr add t

/-- `Ident.Set.remove` -/
def remove (x : Ident) (s : IdentSet) : IdentSet := s.filter (· ≠ x)

/-- `Ident.Set.diff s (Ident.Set.of_list ids)` -/
def diff (s : IdentSet) (ids : List Ident) : IdentSet := s.filter (· ∉ ids)

/-- The elements after an addition. -/
theorem mem_add {x y : Ident} {s : IdentSet} : x ∈ add y s ↔ x = y ∨ x ∈ s := by
  induction s with
  | nil => simp [add]
  | cons z s ih =>
      unfold add
      by_cases hz : y = z
      · rw [if_pos hz]
        subst hz
        simp
      · rw [if_neg hz]
        by_cases hlt : (y.compareIdent z).isLT
        · rw [if_pos hlt]
          simp
        · rw [if_neg hlt, List.mem_cons, ih, List.mem_cons]
          tauto

theorem mem_union {x : Ident} {s t : IdentSet} : x ∈ union s t ↔ x ∈ s ∨ x ∈ t := by
  induction s with
  | nil => simp [union]
  | cons y s ih =>
      have hstep : union (y :: s) t = add y (union s t) := rfl
      rw [hstep, mem_add, ih, List.mem_cons]
      tauto

theorem mem_remove {x y : Ident} {s : IdentSet} : x ∈ remove y s ↔ x ∈ s ∧ x ≠ y := by
  simp [remove]

theorem mem_diff {x : Ident} {s : IdentSet} {ids : List Ident} :
    x ∈ diff s ids ↔ x ∈ s ∧ x ∉ ids := by
  simp [diff]

end IdentSet

/-- `Path.t` -/
inductive Path where
  | Pident (id : Ident)
  | Pdot (p : Path) (s : String)
  | Papply (p1 p2 : Path)
deriving DecidableEq, Repr

/-! ## Places in the source -/

/-- `Lexing.position` -/
structure Position where
  pos_fname : String
  pos_lnum : Int
  pos_bol : Int
  pos_cnum : Int
deriving DecidableEq, Repr

/-- `Location.t` -/
structure Location where
  loc_start : Position
  loc_end : Position
  loc_ghost : Bool
deriving DecidableEq, Repr

inductive ScopeItem where
  | Sc_anonymous_function | Sc_value_definition | Sc_module_definition
  | Sc_class_definition | Sc_method_definition
deriving DecidableEq, Repr

inductive Scopes where
  | Empty
  | Cons (item : ScopeItem) (str str_fun : String)
deriving DecidableEq, Repr

/-- `scoped_location` -/
inductive ScopedLocation where
  | Loc_unknown
  | Loc_known (loc : Location) (scopes : Scopes)
deriving DecidableEq, Repr

/-! ## Primitives -/

inductive MutableFlag where
  | Immutable | Mutable
deriving DecidableEq, Repr

inductive ImmediateOrPointer where
  | Immediate | Pointer
deriving DecidableEq, Repr

inductive InitializationOrAssignment where
  | Assignment | Heap_initialization | Root_initialization
deriving DecidableEq, Repr

inductive IsSafe where
  | Safe | Unsafe
deriving DecidableEq, Repr

/-- `compile_time_constant` -/
inductive CompileTimeConstant where
  | Big_endian | Word_size | Int_size | Max_wosize
  | Ostype_unix | Ostype_win32 | Ostype_cygwin | Backend_type
deriving DecidableEq, Repr

inductive FloatComparison where
  | CFeq | CFneq | CFlt | CFnlt | CFgt | CFngt | CFle | CFnle | CFge | CFnge
deriving DecidableEq, Repr

inductive ArrayKind where
  | Pgenarray | Paddrarray | Pintarray | Pfloatarray
deriving DecidableEq, Repr

inductive BoxedInteger where
  | Pnativeint | Pint32 | Pint64
deriving DecidableEq, Repr

inductive ValueKind where
  | Pgenval | Pfloatval | Pboxedintval (bi : BoxedInteger) | Pintval
deriving DecidableEq, Repr

inductive BigarrayKind where
  | Pbigarray_unknown
  | Pbigarray_float32 | Pbigarray_float64
  | Pbigarray_sint8 | Pbigarray_uint8
  | Pbigarray_sint16 | Pbigarray_uint16
  | Pbigarray_int32 | Pbigarray_int64
  | Pbigarray_caml_int | Pbigarray_native_int
  | Pbigarray_complex32 | Pbigarray_complex64
deriving DecidableEq, Repr

inductive BigarrayLayout where
  | Pbigarray_unknown_layout | Pbigarray_c_layout | Pbigarray_fortran_layout
deriving DecidableEq, Repr

/-- `Types.record_representation` -/
inductive RecordRepresentation where
  | Record_regular
  | Record_float
  | Record_unboxed (inlined : Bool)
  | Record_inlined (tag : Int)
  | Record_extension (path : Path)
deriving DecidableEq, Repr

inductive NativeRepr where
  | Same_as_ocaml_repr | Unboxed_float | Unboxed_integer (bi : BoxedInteger) | Untagged_int
deriving DecidableEq, Repr

/-- `Primitive.description` -/
structure Description where
  prim_name : String
  prim_arity : Nat
  prim_alloc : Bool
  prim_native_name : String
  prim_native_repr_args : List NativeRepr
  prim_native_repr_res : NativeRepr
deriving DecidableEq, Repr

/-- `Primitive.simple` -/
def simple (name : String) (arity : Nat) (alloc : Bool) : Description where
  prim_name := name
  prim_arity := arity
  prim_alloc := alloc
  prim_native_name := ""
  prim_native_repr_args := List.replicate arity .Same_as_ocaml_repr
  prim_native_repr_res := .Same_as_ocaml_repr

/-- `primitive` -/
inductive Primitive where
  | Pbytes_to_string | Pbytes_of_string | Pignore
  | Pgetglobal (id : Ident) | Psetglobal (id : Ident)
  | Pmakeblock (tag : Int) (flag : MutableFlag) (shape : Option (List ValueKind))
  | Pfield (n : Int) (ptr : ImmediateOrPointer) (flag : MutableFlag)
  | Pfield_computed
  | Psetfield (n : Int) (ptr : ImmediateOrPointer) (init : InitializationOrAssignment)
  | Psetfield_computed (ptr : ImmediateOrPointer) (init : InitializationOrAssignment)
  | Pfloatfield (n : Int) | Psetfloatfield (n : Int) (init : InitializationOrAssignment)
  | Pduprecord (rep : RecordRepresentation) (size : Int)
  | Prunstack | Pperform | Presume | Preperform
  | Pccall (p : Description)
  | Praise (k : RaiseKind)
  | Psequand | Psequor | Pnot
  | Pnegint | Paddint | Psubint | Pmulint | Pdivint (safe : IsSafe) | Pmodint (safe : IsSafe)
  | Pandint | Porint | Pxorint | Plslint | Plsrint | Pasrint
  | Pintcomp (c : IntegerComparison)
  | Pcompare_ints | Pcompare_floats | Pcompare_bints (bi : BoxedInteger)
  | Poffsetint (n : Int) | Poffsetref (n : Int)
  | Pintoffloat | Pfloatofint | Pnegfloat | Pabsfloat
  | Paddfloat | Psubfloat | Pmulfloat | Pdivfloat
  | Pfloatcomp (c : FloatComparison)
  | Pstringlength | Pstringrefu | Pstringrefs
  | Pbyteslength | Pbytesrefu | Pbytessetu | Pbytesrefs | Pbytessets
  | Pmakearray (kind : ArrayKind) (flag : MutableFlag)
  | Pduparray (kind : ArrayKind) (flag : MutableFlag)
  | Parraylength (kind : ArrayKind)
  | Parrayrefu (kind : ArrayKind) | Parraysetu (kind : ArrayKind)
  | Parrayrefs (kind : ArrayKind) | Parraysets (kind : ArrayKind)
  | Pisint | Pisout
  | Pbintofint (bi : BoxedInteger) | Pintofbint (bi : BoxedInteger)
  | Pcvtbint (src dst : BoxedInteger)
  | Pnegbint (bi : BoxedInteger) | Paddbint (bi : BoxedInteger) | Psubbint (bi : BoxedInteger)
  | Pmulbint (bi : BoxedInteger)
  | Pdivbint (bi : BoxedInteger) (safe : IsSafe) | Pmodbint (bi : BoxedInteger) (safe : IsSafe)
  | Pandbint (bi : BoxedInteger) | Porbint (bi : BoxedInteger) | Pxorbint (bi : BoxedInteger)
  | Plslbint (bi : BoxedInteger) | Plsrbint (bi : BoxedInteger) | Pasrbint (bi : BoxedInteger)
  | Pbintcomp (bi : BoxedInteger) (c : IntegerComparison)
  | Pbigarrayref (isUnsafe : Bool) (n : Int) (kind : BigarrayKind) (layout : BigarrayLayout)
  | Pbigarrayset (isUnsafe : Bool) (n : Int) (kind : BigarrayKind) (layout : BigarrayLayout)
  | Pbigarraydim (n : Int)
  | Pstring_load_16 (isUnsafe : Bool) | Pstring_load_32 (isUnsafe : Bool)
  | Pstring_load_64 (isUnsafe : Bool)
  | Pbytes_load_16 (isUnsafe : Bool) | Pbytes_load_32 (isUnsafe : Bool)
  | Pbytes_load_64 (isUnsafe : Bool)
  | Pbytes_set_16 (isUnsafe : Bool) | Pbytes_set_32 (isUnsafe : Bool)
  | Pbytes_set_64 (isUnsafe : Bool)
  | Pbigstring_load_16 (isUnsafe : Bool) | Pbigstring_load_32 (isUnsafe : Bool)
  | Pbigstring_load_64 (isUnsafe : Bool)
  | Pbigstring_set_16 (isUnsafe : Bool) | Pbigstring_set_32 (isUnsafe : Bool)
  | Pbigstring_set_64 (isUnsafe : Bool)
  | Pctconst (c : CompileTimeConstant)
  | Pbswap16 | Pbbswap (bi : BoxedInteger) | Pint_as_pointer
  | Patomic_load (ptr : ImmediateOrPointer) | Patomic_exchange | Patomic_cas | Patomic_fetch_add
  | Popaque | Pdls_get
deriving DecidableEq

end CamlLambda
