import CamlInterp.CellStoreProofs

/-! # Values — words, pointers and heap blocks

    The macros of `mlvalues.h` and `fiber.h` on a structured word: a plain
    64-bit word (immediates, code pointers, headers and closure-info words), a
    pointer to a field of a heap block, a static zero-sized block, or the
    tagged pointer to a stack.  Arithmetic on the last three is not something
    the interpreter does, so those cases are faults; reading memory that is not
    there is a fault too. -/

namespace CamlValue

open CellStore

/-- `code_t` is the byte address of an `opcode_t`. -/
abbrev CodePtr := BitVec 64

/-- `opcode_t` is `int32_t`. -/
abbrev OpcodeWord := BitVec 32

/-- `intnat` quantities that the interpreter parks in stack words with
    `Val_long` (argument counts, distances in a stack): the 63 bits that
    survive the tagging. -/
abbrev Long := BitVec 63

/-- The NULL code pointer. -/
def nullCode : CodePtr := 0#64

/-- `value`. -/
inductive Value where
  /-- memory nobody has initialised -/
  | undef
  /-- a plain machine word -/
  | word (w : BitVec 64)
  /-- the address of field `ofs` of heap block `b` -/
  | ptr (b : Nat) (ofs : Int)
  /-- `Atom(tag)` -/
  | atom (tag : BitVec 8)
  /-- `Val_ptr(stk)` for a non-NULL stack -/
  | stk (s : Nat)
deriving DecidableEq, Repr

/-- Why the C program has no next state. -/
inductive Fault where
  /-- memory outside any object, or an operation C leaves undefined -/
  | undefined
  /-- an `assert` of the profiling code -/
  | assertFailed
  /-- a `CAMLassert` -/
  | camlAssert
  /-- `caml_fatal_error` -/
  | fatalError
  /-- `exit` -/
  | exited
  /-- a loop that never ends -/
  | diverged
  /-- `caml_interprete` has returned -/
  | returned
deriving DecidableEq, Repr

/-- The outcome of C code that may fault. -/
abbrev C (α : Type) := Except Fault α

/-- Turn a missing object into undefined behaviour. -/
def orUndefined {α : Type} : Option α → C α
  | none => .error .undefined
  | some a => .ok a

/-- `CAMLassert(b)`. -/
def camlAssert (b : Bool) : C Unit := if b then .ok () else .error .camlAssert

theorem orUndefined_eq_ok {α : Type} {o : Option α} {a : α} :
    orUndefined o = .ok a ↔ o = some a := by
  cases o with
  | none => simp [orUndefined]
  | some b => simp [orUndefined]

/-- Peel one statement off a C computation that went well. -/
theorem bind_eq_ok {α β : Type} {x : C α} {f : α → C β} {b : β} :
    (x >>= f) = .ok b ↔ ∃ a, x = .ok a ∧ f a = .ok b := by
  cases x with
  | error e => simp [bind, Except.bind]
  | ok a => simp [bind, Except.bind]

theorem camlAssert_eq_ok {b : Bool} {u : Unit} : camlAssert b = .ok u ↔ b = true := by
  cases b <;> simp [camlAssert]

/-! ## Immediates -/

/-- `Val_long(n)`, as a word. -/
def tagged (n : Long) : BitVec 64 := n ++ 1#1

/-- `Long_val(w)` of a word: the arithmetic shift drops the tag bit. -/
def untagged (w : BitVec 64) : Long := w.extractLsb' 1 63

@[simp] theorem untagged_tagged (n : Long) : untagged (tagged n) = n := by
  unfold untagged tagged
  apply BitVec.eq_of_getLsbD_eq
  intro i hi
  rw [BitVec.getLsbD_extractLsb', BitVec.getLsbD_append, if_neg (by omega)]
  simp [hi]

theorem toNat_tagged (x : Long) : (tagged x).toNat = 2 * x.toNat + 1 := by
  unfold tagged
  rw [BitVec.toNat_append]
  rw [← Nat.shiftLeft_add_eq_or_of_lt (by decide), Nat.shiftLeft_eq]
  show x.toNat * 2 + 1 = _
  omega

theorem toInt_tagged (x : Long) : (tagged x).toInt = 2 * x.toInt + 1 := by
  have hx := x.isLt
  rw [BitVec.toInt_eq_toNat_cond, BitVec.toInt_eq_toNat_cond, toNat_tagged]
  split
  · next h =>
      rw [if_pos (by omega)]
      omega
  · next h =>
      rw [if_neg (by omega)]
      omega

/-- A count that an `intnat` holds. -/
theorem toInt_count {k : Nat} (h : k < 2 ^ 62) : (BitVec.ofNat 63 k).toInt = k := by
  rw [BitVec.toInt_eq_toNat_of_lt] <;> rw [BitVec.toNat_ofNat, Nat.mod_eq_of_lt] <;> omega

/-- `Val_long(n)`. -/
def valLong (n : Long) : Value := .word (tagged n)

/-- `Long_val(v)`. -/
def longVal : Value → C Long
  | .word w => .ok (untagged w)
  | _ => .error .undefined

@[simp] theorem longVal_valLong (n : Long) : longVal (valLong n) = .ok n := by
  simp [longVal, valLong]

/-- `Val_int(n)` for an `int` expression. -/
def valInt (n : Int) : Value := valLong (BitVec.ofInt 63 n)

def valUnit : Value := valInt 0

def valFalse : Value := valInt 0

def valTrue : Value := valInt 1

/-- `Val_ptr(p)`; the NULL pointer is the word 1. -/
def valPtr : Option Nat → Value
  | none => .word 1#64
  | some s => .stk s

/-- `Ptr_val(v)`. -/
def ptrVal : Value → C (Option Nat)
  | .word w => if w = 1#64 then .ok none else .error .undefined
  | .stk s => .ok (some s)
  | _ => .error .undefined

@[simp] theorem ptrVal_valPtr (p : Option Nat) : ptrVal (valPtr p) = .ok p := by
  cases p <;> rfl

/-- `(code_t) v`. -/
def codeOf : Value → C CodePtr
  | .word w => .ok w
  | _ => .error .undefined

/-- `(value) pc`. -/
def ofCode (pc : CodePtr) : Value := .word pc

@[simp] theorem codeOf_ofCode (pc : CodePtr) : codeOf (ofCode pc) = .ok pc := rfl

/-- The word of a value that is plain data. -/
def wordOf : Value → C (BitVec 64)
  | .word w => .ok w
  | _ => .error .undefined

/-- `Is_block(v)`. -/
def isBlock : Value → C Bool
  | .undef => .error .undefined
  | .word w => .ok (!w.getLsbD 0)
  | .ptr _ _ => .ok true
  | .atom _ => .ok true
  | .stk _ => .ok false

/-- C's `==` on two values. -/
def sameWord (a b : Value) : C Bool :=
  if a = .undef ∨ b = .undef then .error .undefined else .ok (decide (a = b))

/-! ## Heap blocks -/

/-- A heap block: its tag and its fields, one word each. -/
structure Block where
  tag : Nat
  fields : List Value

abbrev Heap := Store Block

def closureTag : Nat := 247
def contTag : Nat := 245
def infixTag : Nat := 249
def doubleTag : Nat := 253
def doubleArrayTag : Nat := 254

/-- `Make_header(wosize, tag, 0)`. -/
def makeHeader (wosize tag : Nat) : BitVec 64 := BitVec.ofNat 64 (wosize * 1024 + tag)

/-- `Make_closinfo(arity, delta)`. -/
def makeClosinfo (arity delta : Nat) : BitVec 64 :=
  BitVec.ofNat 64 (arity * 2 ^ 56 + delta * 2 + 1)

/-- The block and the absolute field index `v[i]` designates. -/
def locate (h : Heap) (v : Value) (i : Int) : Option (Nat × Block × Nat) :=
  match v with
  | .ptr b ofs =>
      match h.get b with
      | some blk =>
          if 0 ≤ ofs + i ∧ (ofs + i).toNat < blk.fields.length then
            some (b, blk, (ofs + i).toNat)
          else none
      | none => none
  | _ => none

/-- `Field(v, i)`, read. -/
def field (h : Heap) (v : Value) (i : Int) : C Value :=
  match locate h v i with
  | some (_, blk, j) => orUndefined blk.fields[j]?
  | none => .error .undefined

/-- `Field(v, i) = x`. -/
def setField (h : Heap) (v : Value) (i : Int) (x : Value) : C Heap :=
  match locate h v i with
  | some (b, blk, j) => .ok (h.put b { blk with fields := blk.fields.set j x })
  | none => .error .undefined

/-- `Code_val(v)`. -/
def codeVal (h : Heap) (v : Value) : C CodePtr := do
  codeOf (← field h v 0)

/-- `Tag_val(v)`; the header of an infix pointer is the word before it. -/
def tagVal (h : Heap) (v : Value) : C Nat :=
  match v with
  | .atom t => .ok t.toNat
  | .ptr b 0 =>
      match h.get b with
      | some blk => .ok blk.tag
      | none => .error .undefined
  | .ptr b ofs => do
      let w ← wordOf (← field h (.ptr b ofs) (-1))
      .ok (w.toNat % 256)
  | _ => .error .undefined

/-- `Wosize_val(v)`. -/
def wosizeVal (h : Heap) (v : Value) : C Nat :=
  match v with
  | .atom _ => .ok 0
  | .ptr b 0 =>
      match h.get b with
      | some blk => .ok blk.fields.length
      | none => .error .undefined
  | .ptr b ofs => do
      let w ← wordOf (← field h (.ptr b ofs) (-1))
      .ok (w.toNat / 1024)
  | _ => .error .undefined

/-- A freshly allocated block, and the heap that holds it. -/
def allocBlock (h : Heap) (tag : Nat) (fields : List Value) : Value × Heap :=
  (.ptr h.fresh 0, h.alloc ⟨tag, fields⟩)

/-- `Byte_u(v, i)`, read (little endian). -/
def byteU (h : Heap) (v : Value) (i : Int) : C (BitVec 8) := do
  let w ← wordOf (← field h v (i / 8))
  .ok (w.extractLsb' (8 * (i % 8).toNat) 8)

/-- `Byte_u(v, i) = x`. -/
def setByteU (h : Heap) (v : Value) (i : Int) (x : BitVec 8) : C Heap := do
  let w ← wordOf (← field h v (i / 8))
  let shift := 8 * (i % 8).toNat
  let cleared := w &&& ~~~((255#64) <<< shift)
  setField h v (i / 8) (.word (cleared ||| (x.zeroExtend 64 <<< shift)))

/-- Reading field `i` of a block through the pointer to its start. -/
theorem field_ptr_zero {h : Heap} {b i : Nat} {blk : Block} {x : Value}
    (hb : h.get b = some blk) (hi : blk.fields[i]? = some x) :
    field h (.ptr b 0) i = .ok x := by
  obtain ⟨hlt, hx⟩ := List.getElem?_eq_some_iff.mp hi
  simp [field, locate, hb, hlt, hx, orUndefined]

/-- The code pointer of a closure is its first field. -/
theorem codeVal_of_get {h : Heap} {b : Nat} {blk : Block} {pc : CodePtr}
    (hb : h.get b = some blk) (h0 : blk.fields[0]? = some (ofCode pc)) :
    codeVal h (.ptr b 0) = .ok pc := by
  have h1 : field h (.ptr b 0) 0 = .ok (ofCode pc) := field_ptr_zero hb h0
  simp [codeVal, h1, bind, Except.bind]

end CamlValue
