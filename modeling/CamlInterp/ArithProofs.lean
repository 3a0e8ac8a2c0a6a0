import Mathlib.Algebra.Ring.Int.Defs
import CamlInterp.CallProofs

/-! # Integers — arithmetic on tagged words

    An OCaml integer has 63 bits and is held in a word as twice its value plus
    one.  The instructions work on the words, each with a correction of its own;
    what they mean is said here on the integers. -/

namespace CamlArith

open CellStore CamlValue CamlOpcode CamlMachine CamlInstr CamlControl CamlStep CamlFusion CamlCall

variable {ω : Type}

/-! ## Tagged words -/

/-- An integer reduced to 63 bits, in two's complement. -/
def wrap (z : Int) : Long := BitVec.ofInt 63 z

/-- The tagged word of a wrapped integer. -/
theorem tagged_wrap (z : Int) : tagged (wrap z) = BitVec.ofInt 64 (2 * z + 1) := by
  apply BitVec.eq_of_toInt_eq
  rw [toInt_tagged, wrap, BitVec.toInt_ofInt, BitVec.toInt_ofInt]
  simp only [Int.bmod_def]
  omega

theorem wrap_toInt (a : Long) : wrap a.toInt = a := BitVec.ofInt_toInt

theorem tagged_eq (a : Long) : tagged a = BitVec.ofInt 64 (2 * a.toInt + 1) := by
  rw [← tagged_wrap, wrap_toInt]

theorem toInt_bounds (a : Long) : -(2 ^ 62 : Int) ≤ a.toInt ∧ a.toInt < 2 ^ 62 := by
  have h1 := BitVec.le_toInt a
  have h2 := BitVec.toInt_lt (x := a)
  exact ⟨h1, h2⟩

/-- `Long_val` loses nothing. -/
theorem longVal64_tagged (a : Long) : longVal64 (tagged a) = BitVec.ofInt 64 a.toInt := by
  have hb := toInt_bounds a
  apply BitVec.eq_of_toInt_eq
  rw [longVal64, BitVec.toInt_sshiftRight, toInt_tagged, BitVec.toInt_ofInt,
    Int.bmod_eq_of_le (by omega) (by omega), Int.shiftRight_eq_div_pow]
  omega

/-- `Val_long` reduces to 63 bits. -/
theorem valLong64_ofInt (z : Int) : valLong64 (BitVec.ofInt 64 z) = tagged (wrap z) := by
  rw [tagged_wrap, valLong64, BitVec.shiftLeft_eq_mul_twoPow, BitVec.ofInt_add, BitVec.ofInt_mul,
    BitVec.mul_comm]
  rfl

/-- The lowest bit of a tagged word is set. -/
theorem tagged_lsb (a : Long) : (tagged a).getLsbD 0 = true := by
  unfold tagged
  rw [BitVec.getLsbD_append, if_pos (by decide)]
  rfl

theorem tagged_injective {a b : Long} (h : tagged a = tagged b) : a = b := by
  rw [← untagged_tagged a, h, untagged_tagged]

/-! ## The operations on words -/

theorem negint_word (a : Long) : 2#64 - tagged a = tagged (wrap (-a.toInt)) := by
  rw [tagged_wrap, tagged_eq, BitVec.sub_eq_add_neg, ← BitVec.ofInt_neg]
  show BitVec.ofInt 64 2 + _ = _
  rw [← BitVec.ofInt_add]
  congr 1
  omega

theorem addint_word (a b : Long) :
    tagged a + tagged b - 1#64 = tagged (wrap (a.toInt + b.toInt)) := by
  rw [tagged_wrap, tagged_eq, tagged_eq, BitVec.sub_eq_add_neg]
  show _ + _ + BitVec.ofInt 64 (-1) = _
  rw [← BitVec.ofInt_add, ← BitVec.ofInt_add]
  congr 1
  omega

theorem subint_word (a b : Long) :
    tagged a - tagged b + 1#64 = tagged (wrap (a.toInt - b.toInt)) := by
  rw [tagged_wrap, tagged_eq, tagged_eq, BitVec.sub_eq_add_neg, ← BitVec.ofInt_neg]
  show _ + _ + BitVec.ofInt 64 1 = _
  rw [← BitVec.ofInt_add, ← BitVec.ofInt_add]
  congr 1
  omega

theorem mulint_word (a b : Long) :
    valLong64 (longVal64 (tagged a) * longVal64 (tagged b))
      = tagged (wrap (a.toInt * b.toInt)) := by
  rw [longVal64_tagged, longVal64_tagged, ← BitVec.ofInt_mul, valLong64_ofInt]

/-- A quotient or remainder of two 63-bit integers, computed with 64 bits. -/
theorem divide_word {f : BitVec 64 → BitVec 64 → BitVec 64} {g : Int → Int → Int}
    (hf : ∀ x y, f x y = BitVec.ofInt 64 (g x.toInt y.toInt)) (a b : Long) :
    valLong64 (f (longVal64 (tagged a)) (longVal64 (tagged b)))
      = tagged (wrap (g a.toInt b.toInt)) := by
  have hlong : ∀ c : Long, (BitVec.ofInt 64 c.toInt).toInt = c.toInt := by
    intro c
    have hc := toInt_bounds c
    rw [BitVec.toInt_ofInt, Int.bmod_eq_of_le (by omega) (by omega)]
  rw [longVal64_tagged, longVal64_tagged, hf, hlong, hlong, valLong64_ofInt]

theorem sdiv_ofInt (x y : BitVec 64) : x.sdiv y = BitVec.ofInt 64 (x.toInt.tdiv y.toInt) := by
  apply BitVec.eq_of_toInt_eq
  rw [BitVec.toInt_sdiv, BitVec.toInt_ofInt]

theorem srem_ofInt (x y : BitVec 64) : x.srem y = BitVec.ofInt 64 (x.toInt.tmod y.toInt) := by
  rw [← BitVec.toInt_srem, BitVec.ofInt_toInt]

theorem andint_word (a b : Long) : tagged a &&& tagged b = tagged (a &&& b) := by
  unfold tagged
  rw [BitVec.and_append]
  rfl

theorem orint_word (a b : Long) : tagged a ||| tagged b = tagged (a ||| b) := by
  unfold tagged
  rw [BitVec.or_append]
  rfl

theorem xorint_word (a b : Long) : (tagged a ^^^ tagged b) ||| 1#64 = tagged (a ^^^ b) := by
  have hone : (1#64 : BitVec 64) = (0#63 : BitVec 63) ++ 1#1 := by decide
  unfold tagged
  rw [BitVec.xor_append, hone, BitVec.or_append, BitVec.or_zero]
  rfl

/-- The shift count that is read from a tagged word. -/
theorem shiftCount_tagged {b : Long} {k : Nat} (hb : b.toInt = k) (hk : k ≤ 63) :
    shiftCount (tagged b) = .ok k := by
  have hnat : (longVal64 (tagged b)).toNat = k := by
    rw [longVal64_tagged, hb, BitVec.ofInt_natCast, BitVec.toNat_ofNat]
    omega
  unfold shiftCount
  rw [hnat, if_pos (by omega)]

theorem lslint_word (a : Long) (k : Nat) :
    ((tagged a - 1#64) <<< k) + 1#64 = tagged (wrap (a.toInt * 2 ^ k)) := by
  have hpow : BitVec.twoPow 64 k = BitVec.ofInt 64 (2 ^ k) := by
    apply BitVec.eq_of_toNat_eq
    have hcast : (2 ^ k : Int) = ((2 ^ k : Nat) : Int) := (Int.natCast_pow 2 k).symm
    rw [BitVec.toNat_twoPow, hcast, BitVec.ofInt_natCast, BitVec.toNat_ofNat]
  rw [tagged_wrap, tagged_eq, BitVec.sub_eq_add_neg, BitVec.shiftLeft_eq_mul_twoPow, hpow]
  show (_ + BitVec.ofInt 64 (-1)) * _ + BitVec.ofInt 64 1 = _
  have hcancel : 2 * a.toInt + 1 + -1 = 2 * a.toInt := by omega
  rw [← BitVec.ofInt_add, ← BitVec.ofInt_mul, ← BitVec.ofInt_add, ← Int.mul_assoc, hcancel]

/-- Setting the lowest bit tags what is above it. -/
theorem or_one_eq (w : BitVec 64) : w ||| 1#64 = tagged (untagged w) := by
  apply BitVec.eq_of_getLsbD_eq
  intro i hi
  unfold tagged untagged
  rw [BitVec.getLsbD_or, BitVec.getLsbD_append]
  cases i with
  | zero => rw [if_pos (by decide)]; simp
  | succ i =>
      rw [if_neg (by omega), BitVec.getLsbD_extractLsb', Nat.add_sub_cancel, Nat.add_comm 1 i]
      simp [show i < 63 by omega]

theorem untagged_eq (w : BitVec 64) : untagged w = wrap (w.toInt / 2) := by
  have hw := w.isLt
  apply BitVec.eq_of_toNat_eq
  rw [wrap, BitVec.toNat_ofInt, BitVec.toInt_eq_toNat_cond, untagged, BitVec.extractLsb'_toNat,
    Nat.shiftRight_eq_div_pow]
  split
  · omega
  · omega

theorem lsrint_word (a : Long) (k : Nat) :
    (tagged a >>> k) ||| 1#64 = tagged (BitVec.ofNat 63 (a.toNat / 2 ^ k)) := by
  rw [or_one_eq]
  congr 1
  apply BitVec.eq_of_toNat_eq
  rw [untagged, BitVec.extractLsb'_toNat, BitVec.toNat_ushiftRight, toNat_tagged,
    BitVec.toNat_ofNat, Nat.shiftRight_eq_div_pow, Nat.shiftRight_eq_div_pow, Nat.div_div_eq_div_mul,
    Nat.mul_comm (2 ^ k), ← Nat.div_div_eq_div_mul]
  congr 2
  omega

theorem asrint_word (a : Long) (k : Nat) :
    (tagged a).sshiftRight k ||| 1#64 = tagged (wrap (a.toInt / 2 ^ k)) := by
  have hcast : ((2 ^ k : Nat) : Int) = 2 ^ k := Int.natCast_pow 2 k
  have hhalf : (2 * a.toInt + 1) / 2 = a.toInt := by omega
  rw [or_one_eq, untagged_eq, BitVec.toInt_sshiftRight, toInt_tagged, Int.shiftRight_eq_div_pow,
    Int.ediv_ediv_of_nonneg (Int.natCast_nonneg _), Int.mul_comm ((2 ^ k : Nat) : Int) 2,
    ← Int.ediv_ediv_of_nonneg (by decide), hhalf, hcast]

theorem slt_tagged (a b : Long) : (tagged a).slt (tagged b) = decide (a.toInt < b.toInt) := by
  rw [BitVec.slt_eq_decide, toInt_tagged, toInt_tagged]
  exact decide_eq_decide.mpr (by omega)

theorem sle_tagged (a b : Long) : (tagged a).sle (tagged b) = decide (a.toInt ≤ b.toInt) := by
  rw [BitVec.sle_eq_decide, toInt_tagged, toInt_tagged]
  exact decide_eq_decide.mpr (by omega)

theorem ult_tagged (a b : Long) : (tagged a).ult (tagged b) = decide (a.toNat < b.toNat) := by
  rw [BitVec.ult_eq_decide, toNat_tagged, toNat_tagged]
  exact decide_eq_decide.mpr (by omega)

theorem ule_tagged (a b : Long) : (tagged a).ule (tagged b) = decide (a.toNat ≤ b.toNat) := by
  rw [BitVec.ule_eq_decide, toNat_tagged, toNat_tagged]
  exact decide_eq_decide.mpr (by omega)

/-! ## What the instructions mean -/

/-- A C truth value. -/
def truth (p : Prop) [Decidable p] : Long := if p then 1#63 else 0#63

/-- A shift by `b`, for the counts 0 to 63. -/
def shifted (f : Nat → Long) (b : Long) : Option Long :=
  if 0 ≤ b.toInt ∧ b.toInt ≤ 63 then some (f b.toInt.toNat) else none

/-- The integer an instruction computes from `accu` and the top of the stack,
    where it is defined. -/
def meaning : Opcode → Option (Long → Long → Option Long)
  | .ADDINT => some fun a b => some (wrap (a.toInt + b.toInt))
  | .SUBINT => some fun a b => some (wrap (a.toInt - b.toInt))
  | .MULINT => some fun a b => some (wrap (a.toInt * b.toInt))
  | .DIVINT => some fun a b =>
      if b.toInt = 0 then none else some (wrap (a.toInt.tdiv b.toInt))
  | .MODINT => some fun a b =>
      if b.toInt = 0 then none else some (wrap (a.toInt.tmod b.toInt))
  | .ANDINT => some fun a b => some (a &&& b)
  | .ORINT => some fun a b => some (a ||| b)
  | .XORINT => some fun a b => some (a ^^^ b)
  | .LSLINT => some fun a => shifted fun k => wrap (a.toInt * 2 ^ k)
  | .LSRINT => some fun a => shifted fun k => BitVec.ofNat 63 (a.toNat / 2 ^ k)
  | .ASRINT => some fun a => shifted fun k => wrap (a.toInt / 2 ^ k)
  | .EQ => some fun a b => some (truth (a.toInt = b.toInt))
  | .NEQ => some fun a b => some (truth (a.toInt ≠ b.toInt))
  | .LTINT => some fun a b => some (truth (a.toInt < b.toInt))
  | .LEINT => some fun a b => some (truth (a.toInt ≤ b.toInt))
  | .GTINT => some fun a b => some (truth (a.toInt > b.toInt))
  | .GEINT => some fun a b => some (truth (a.toInt ≥ b.toInt))
  | .ULTINT => some fun a b => some (truth (a.toNat < b.toNat))
  | .UGEINT => some fun a b => some (truth (a.toNat ≥ b.toNat))
  | _ => none

variable {rt : Runtime ω} {act : Activation} {m : Machine ω} {c : Core} {a b r : Long}
  {rest : List Value}

theorem valBool_truth (p : Prop) [Decidable p] : valBool (decide p) = valLong (truth p) := by
  unfold valBool truth
  by_cases hp : p
  · rw [decide_eq_true hp, if_pos rfl, if_pos hp]
    rfl
  · rw [decide_eq_false hp, if_neg (by decide), if_neg hp]
    rfl

/-- `accu` and the top of the stack replaced by a result. -/
def put (r : Long) (rest : List Value) (c : Core) : Core :=
  { c with accu := valLong r, sp := rest }

theorem binop_tagged {f : BitVec 64 → BitVec 64 → C (BitVec 64)} (ha : c.accu = valLong a)
    (hsp : c.sp = valLong b :: rest) (hf : f (tagged a) (tagged b) = .ok (tagged r)) :
    binop f c = .ok (put r rest c) := by
  unfold binop put
  rw [ha, hsp]
  show (f (tagged a) (tagged b) >>= _) = _
  rw [hf]
  rfl

theorem comparison_tagged {tst : BitVec 64 → BitVec 64 → Bool} {p : Prop} [Decidable p]
    (ha : c.accu = valLong a) (hsp : c.sp = valLong b :: rest)
    (htst : tst (tagged a) (tagged b) = decide p) :
    comparison tst c = .ok (put (truth p) rest c) := by
  unfold comparison put
  rw [ha, hsp, ← valBool_truth p, ← htst]
  rfl

theorem sameWord_tagged (a b : Long) :
    sameWord (valLong a) (valLong b) = .ok (decide (a.toInt = b.toInt)) := by
  have hiff : valLong a = valLong b ↔ a.toInt = b.toInt :=
    ⟨fun h => congrArg BitVec.toInt (tagged_injective (Value.word.inj h)),
      fun h => congrArg valLong (BitVec.eq_of_toInt_eq h)⟩
  unfold sameWord
  rw [if_neg (by unfold valLong; simp), decide_eq_decide.mpr hiff]

theorem equality_tagged {negate : Bool} {p : Prop} [Decidable p] (ha : c.accu = valLong a)
    (hsp : c.sp = valLong b :: rest) (hp : (decide (a.toInt = b.toInt) != negate) = decide p) :
    equality negate c = .ok (put (truth p) rest c) := by
  unfold equality put
  rw [ha, hsp, ← valBool_truth p, ← hp]
  exact bind_eq_ok.mpr ⟨_, rfl, bind_eq_ok.mpr ⟨_, sameWord_tagged a b, rfl⟩⟩

/-- A division by something else than zero. -/
theorem divide_tagged {f : BitVec 64 → BitVec 64 → BitVec 64} (ha : m.accu = valLong a)
    (hsp : m.sp = valLong b :: rest) (hb : b.toInt ≠ 0)
    (hf : valLong64 (f (longVal64 (tagged a)) (longVal64 (tagged b))) = tagged r) :
    divide rt f m = .ok (.next { m with toCore := put r rest m.toCore }) := by
  have hne : longVal64 (tagged b) ≠ 0#64 := by
    intro h
    have hlong := longVal64_tagged b
    have hbounds := toInt_bounds b
    rw [h] at hlong
    have hz := congrArg BitVec.toInt hlong
    rw [BitVec.toInt_ofInt, Int.bmod_eq_of_le (by omega) (by omega)] at hz
    exact hb hz.symm
  unfold divide put
  rw [hsp]
  show (if longVal64 (tagged b) = 0#64 then _ else wordOf m.accu >>= _) = _
  rw [if_neg hne, ha]
  show Except.ok (Ctl.next { m with
    accu := .word (valLong64 (f (longVal64 (tagged a)) (longVal64 (tagged b)))), sp := rest }) = _
  rw [hf]
  rfl

theorem shifted_some {f : Nat → Long} (h : shifted f b = some r) :
    ∃ k : Nat, b.toInt = k ∧ k ≤ 63 ∧ r = f k := by
  unfold shifted at h
  split at h
  · next hb =>
      refine ⟨b.toInt.toNat, (Int.toNat_of_nonneg hb.1).symm, by omega, ?_⟩
      exact (Option.some.inj h).symm
  · cases h

theorem shift_tagged {f : Nat → BitVec 64} {g : Nat → Long} (hf : ∀ k, f k = tagged (g k))
    (h : shifted g b = some r) :
    (shiftCount (tagged b) >>= fun k => .ok (f k)) = .ok (tagged r) := by
  obtain ⟨k, hb, hk, rfl⟩ := shifted_some h
  rw [shiftCount_tagged hb hk]
  exact congrArg _ (hf k)

theorem guarded_some {z : Long} (h : (if b.toInt = 0 then none else some z) = some r) :
    b.toInt ≠ 0 ∧ z = r := by
  split at h
  · cases h
  · next hb => exact ⟨hb, Option.some.inj h⟩

/-- The case of an instruction of the table. -/
theorem exec_meaning {op : Opcode} {f : Long → Long → Option Long} (hop : meaning op = some f)
    (ha : m.accu = valLong a) (hsp : m.sp = valLong b :: rest) (hr : f a b = some r) :
    CamlUpstream.exec rt act op m = .ok (.next { m with toCore := put r rest m.toCore }) := by
  have hnext : ∀ {g : Core → C Core}, g m.toCore = .ok (put r rest m.toCore) →
      thenNext g m = .ok (.next { m with toCore := put r rest m.toCore }) := by
    intro g hg
    unfold thenNext onCore
    rw [hg]
    rfl
  cases op with
  | ADDINT =>
      cases hop
      exact hnext (binop_tagged ha hsp (by rw [addint_word, Option.some.inj hr]))
  | SUBINT =>
      cases hop
      exact hnext (binop_tagged ha hsp (by rw [subint_word, Option.some.inj hr]))
  | MULINT =>
      cases hop
      exact hnext (binop_tagged ha hsp (by rw [mulint_word, Option.some.inj hr]))
  | DIVINT =>
      cases hop
      obtain ⟨hb, rfl⟩ := guarded_some hr
      exact divide_tagged ha hsp hb (divide_word sdiv_ofInt a b)
  | MODINT =>
      cases hop
      obtain ⟨hb, rfl⟩ := guarded_some hr
      exact divide_tagged ha hsp hb (divide_word srem_ofInt a b)
  | ANDINT =>
      cases hop
      exact hnext (binop_tagged ha hsp (by rw [andint_word, Option.some.inj hr]))
  | ORINT =>
      cases hop
      exact hnext (binop_tagged ha hsp (by rw [orint_word, Option.some.inj hr]))
  | XORINT =>
      cases hop
      exact hnext (binop_tagged ha hsp (by rw [xorint_word, Option.some.inj hr]))
  | LSLINT =>
      cases hop
      exact hnext (binop_tagged ha hsp (shift_tagged (lslint_word a) hr))
  | LSRINT =>
      cases hop
      exact hnext (binop_tagged ha hsp (shift_tagged (lsrint_word a) hr))
  | ASRINT =>
      cases hop
      exact hnext (binop_tagged ha hsp (shift_tagged (asrint_word a) hr))
  | EQ =>
      cases hop
      obtain rfl := Option.some.inj hr
      exact hnext (equality_tagged ha hsp (Bool.xor_false _))
  | NEQ =>
      cases hop
      obtain rfl := Option.some.inj hr
      exact hnext (equality_tagged ha hsp (by rw [decide_not]; exact Bool.xor_true _))
  | LTINT =>
      cases hop
      obtain rfl := Option.some.inj hr
      exact hnext (comparison_tagged ha hsp (slt_tagged a b))
  | LEINT =>
      cases hop
      obtain rfl := Option.some.inj hr
      exact hnext (comparison_tagged ha hsp (sle_tagged a b))
  | GTINT =>
      cases hop
      obtain rfl := Option.some.inj hr
      exact hnext (comparison_tagged ha hsp (slt_tagged b a))
  | GEINT =>
      cases hop
      obtain rfl := Option.some.inj hr
      exact hnext (comparison_tagged ha hsp (sle_tagged b a))
  | ULTINT =>
      cases hop
      obtain rfl := Option.some.inj hr
      exact hnext (comparison_tagged ha hsp (ult_tagged a b))
  | UGEINT =>
      cases hop
      obtain rfl := Option.some.inj hr
      exact hnext (comparison_tagged ha hsp (ule_tagged b a))
  | _ => cases hop

/-- No signal handler takes the place of an exception being raised. -/
def RaisesItself (rt : Runtime ω) (e : Value) : Prop :=
  ∀ mem dom, rt.signalsAtRaise e mem dom = (e, mem, dom)

/-- A division by zero raises, over the frame of a C call and without the divisor. -/
theorem divide_zero {f : BitVec 64 → BitVec 64 → BitVec 64} {i : StackInfo} {e : Value}
    (hsp : m.sp = valLong 0#63 :: rest) (hi : m.dom.pool.get m.dom.currentStack = some i)
    (he : field m.mem.heap m.mem.globalData zeroDivideExn = .ok e) (hsig : RaisesItself rt e) :
    ∃ mr, divide rt f m = .ok (.raiseNotrace mr) ∧ mr.accu = e ∧
      mr.sp = m.env :: ofCode (m.pc + 4#64) :: rest := by
  have hstack : m.dom.stack m.dom.currentStack = .ok i := by
    unfold Domain.stack
    rw [hi]
    rfl
  have hload := loadSp_withWords (m.env :: ofCode (m.pc + 4#64) :: rest) m.dom
  rw [hstack] at hload
  obtain ⟨mr, hmr, haccu, -, -, hspr⟩ := CamlFusion.reenter_ok rt { m with
      sp := m.env :: ofCode (m.pc + 4#64) :: rest
      dom := withWords (m.env :: ofCode (m.pc + 4#64) :: rest) m.dom } e m.mem hload
  refine ⟨mr, ?_, haccu, hspr⟩
  have hsetup : setupForCCall { m with sp := rest } = .ok { m with
      sp := m.env :: ofCode (m.pc + 4#64) :: rest
      dom := withWords (m.env :: ofCode (m.pc + 4#64) :: rest) m.dom } := by
    unfold setupForCCall
    show (m.dom.saveSp (m.env :: ofCode (m.pc + 4#64) :: rest) >>= _) = _
    rw [saveSp_eq, hstack]
    rfl
  unfold divide
  rw [hsp]
  refine bind_eq_ok.mpr ⟨_, rfl, bind_eq_ok.mpr ⟨_, rfl, bind_eq_ok.mpr ⟨rest, rfl, ?_⟩⟩⟩
  show (if longVal64 (tagged 0#63) = 0#64 then _ else _) = _
  rw [if_pos (by decide)]
  refine bind_eq_ok.mpr ⟨_, hsetup, bind_eq_ok.mpr ⟨e, he, ?_⟩⟩
  unfold camlRaise
  rw [hsig]
  exact hmr

/-- A doubled integer added to a tagged one. -/
theorem offset_word {w : BitVec 64} {z : Int} (hz : w = BitVec.ofInt 64 (2 * z)) :
    tagged a + w = tagged (wrap (a.toInt + z)) := by
  rw [tagged_eq, hz, tagged_wrap, ← BitVec.ofInt_add]
  congr 1
  omega

/-- `OFFSETINT`, with the displacement its operand becomes. -/
theorem offsetint_tagged (ha : c.accu = valLong a) {z : Int}
    (hz : operandTwice c = BitVec.ofInt 64 (2 * z)) :
    offsetint c = .ok { c.advance with accu := valLong (wrap (a.toInt + z)) } := by
  unfold offsetint valLong
  rw [← offset_word hz, ha]
  rfl

/-- An operand is shifted at 32 bits, and then widened. -/
theorem operandTwice_eq (c : Core) :
    operandTwice c = BitVec.ofInt 64 ((2 * c.operand.toInt).bmod (2 ^ 32)) := by
  have hn := c.operand.isLt
  have hbound : ((2 * c.operand.toInt).bmod (2 ^ 32)).bmod (2 ^ 64)
      = (2 * c.operand.toInt).bmod (2 ^ 32) := by
    simp only [Int.bmod_def]
    omega
  apply BitVec.eq_of_toInt_eq
  rw [operandTwice, BitVec.toInt_signExtend_of_le (by decide), BitVec.toInt_shiftLeft,
    BitVec.toInt_ofInt, hbound, BitVec.toInt_eq_toNat_cond, Nat.shiftLeft_eq]
  simp only [Int.bmod_def]
  split
  · omega
  · omega

/-- An operand of 31 bits survives. -/
theorem doubled_small {n : OpcodeWord} (h : -2 ^ 30 ≤ n.toInt) (h' : n.toInt < 2 ^ 30) :
    BitVec.ofInt 64 ((2 * n.toInt).bmod (2 ^ 32)) = BitVec.ofInt 64 (2 * n.toInt) := by
  rw [Int.bmod_eq_of_le (by omega) (by omega)]

theorem pc_eight (p : CodePtr) : p + 4#64 + 4#64 = p + 8#64 := BitVec.add_assoc _ _ _

/-- `OFFSETINT`, whatever its operand: the shift has lost the top bit. -/
theorem offsetint_step {n : OpcodeWord} {z : Int}
    (h : Holds m.mem.code m.pc [Opcode.OFFSETINT.code, n])
    (hz : BitVec.ofInt 64 ((2 * n.toInt).bmod (2 ^ 32)) = BitVec.ofInt 64 (2 * z))
    (ha : m.accu = valLong a) :
    machineStep rt act (.next m) =
      .ok (.next { m with pc := m.pc + 8#64, accu := valLong (wrap (a.toInt + z)) }) := by
  obtain ⟨hop, hn, -⟩ := h
  have hoperand : m.toCore.advance.operand = n := hn
  have htwice := operandTwice_eq m.toCore.advance
  rw [hoperand, hz] at htwice
  rw [step_at hop, ← pc_eight]
  show thenNext offsetint _ = _
  unfold thenNext onCore
  show ((offsetint m.toCore.advance >>= _) >>= _) = _
  rw [offsetint_tagged (c := m.toCore.advance) ha htwice]
  rfl

/-- **TAGGED ARITHMETIC** is arithmetic on 63-bit integers: from `a` in `accu` and
    `b` on the stack every instruction computes what it means, as a tagged word. -/
theorem tagged_arithmetic (rt : Runtime ω) (act : Activation) (m : Machine ω) (a : Long)
    (ha : m.accu = valLong a) :
    (m.mem.code m.pc = Opcode.NEGINT.code → machineStep rt act (.next m) =
      .ok (.next { m with pc := m.pc + 4#64, accu := valLong (wrap (-a.toInt)) })) ∧
    (∀ (op : Opcode) (f : Long → Long → Option Long) (b r : Long) (rest : List Value),
      m.mem.code m.pc = op.code → meaning op = some f → m.sp = valLong b :: rest →
      f a b = some r → machineStep rt act (.next m) =
        .ok (.next { m with pc := m.pc + 4#64, accu := valLong r, sp := rest })) ∧
    (∀ (op : Opcode) (rest : List Value) (i : StackInfo) (e : Value),
      m.mem.code m.pc = op.code → op ∈ [Opcode.DIVINT, Opcode.MODINT] →
      m.sp = valLong 0#63 :: rest → m.dom.pool.get m.dom.currentStack = some i →
      field m.mem.heap m.mem.globalData zeroDivideExn = .ok e → RaisesItself rt e →
      ∃ mr, machineStep rt act (.next m) = .ok (.raiseNotrace mr) ∧ mr.accu = e ∧
        mr.sp = m.env :: ofCode (m.pc + 8#64) :: rest) ∧
    (∀ n : OpcodeWord, Holds m.mem.code m.pc [Opcode.OFFSETINT.code, n] →
      -2 ^ 30 ≤ n.toInt → n.toInt < 2 ^ 30 → machineStep rt act (.next m) =
        .ok (.next { m with pc := m.pc + 8#64, accu := valLong (wrap (a.toInt + n.toInt)) })) ∧
    ∀ r : Long, ∃ w, valLong r = .word w ∧ w.getLsbD 0 = true := by
  refine ⟨?_, ?_, ?_, ?_, ?_⟩
  · intro hop
    rw [step_at hop]
    show thenNext negint _ = _
    unfold thenNext onCore negint unop valLong
    rw [← negint_word]
    show ((wordOf m.accu >>= _) >>= _) >>= _ = _
    rw [ha]
    rfl
  · intro op f b r rest hop hf hsp hr
    rw [step_at hop]
    exact exec_meaning (m := { m with toCore := m.toCore.advance }) hf ha hsp hr
  · intro op rest i e hop hdiv hsp hi he hsig
    have hzero := fun f => divide_zero (m := { m with toCore := m.toCore.advance }) (f := f) hsp hi
      he hsig
    rw [step_at hop, ← pc_eight]
    rcases List.mem_cons.mp hdiv with rfl | hmod
    · exact hzero BitVec.sdiv
    · rw [List.mem_singleton.mp hmod]
      exact hzero BitVec.srem
  · intro n hcode h1 h2
    exact offsetint_step hcode (doubled_small h1 h2) ha
  · intro r
    exact ⟨tagged r, rfl, tagged_lsb r⟩

/-- The smallest integer, divided by -1. -/
def dividing : Machine Unit where
  pc := 0x1000#64
  sp := [valInt (-1)]
  accu := valLong (BitVec.intMin 63)
  env := .atom 0
  extraArgs := 0#63
  mem := ⟨⟨[]⟩, assemble 0x1000#64 [Opcode.DIVINT.code], valUnit, valUnit⟩
  dom := domainOf [mainStack] 0

theorem tagged_arithmetic_min :
    machineStep quiet soleActivation (.next dividing) =
      .ok (.next { dividing with
        pc := 0x1004#64, accu := valLong (BitVec.intMin 63), sp := [] }) :=
  (tagged_arithmetic quiet soleActivation dividing (BitVec.intMin 63) rfl).2.1 .DIVINT _ (-1#63) _
    [] rfl rfl rfl (by decide)

/-! ## Immediate operands -/

/-- The comparison a branch instruction makes, its operand on the left. -/
def branchOf : Opcode → Option (Int → Int → Bool)
  | .BEQ => some fun n a => n = a
  | .BNEQ => some fun n a => n ≠ a
  | .BLTINT => some fun n a => n < a
  | .BLEINT => some fun n a => n ≤ a
  | .BGTINT => some fun n a => n > a
  | .BGEINT => some fun n a => n ≥ a
  | _ => none

/-- The instructions that take an immediate operand do so with `n`, whatever
    the machine and the integer `a` they find. -/
structure Accommodated (n : OpcodeWord) : Prop where
  constint : ∀ (ω : Type) (rt : Runtime ω) (act : Activation) (m : Machine ω),
    Holds m.mem.code m.pc [Opcode.CONSTINT.code, n] →
    machineStep rt act (.next m) =
      .ok (.next { m with pc := m.pc + 8#64, accu := valLong (wrap n.toInt) })
  offsetint : ∀ (ω : Type) (rt : Runtime ω) (act : Activation) (m : Machine ω) (a : Long),
    Holds m.mem.code m.pc [Opcode.OFFSETINT.code, n] → m.accu = valLong a →
    machineStep rt act (.next m) =
      .ok (.next { m with pc := m.pc + 8#64, accu := valLong (wrap (a.toInt + n.toInt)) })
  offsetref : ∀ (ω : Type) (rt : Runtime ω) (act : Activation) (m : Machine ω) (a : Long)
    (heap : Heap), Holds m.mem.code m.pc [Opcode.OFFSETREF.code, n] →
    field m.mem.heap m.accu 0 = .ok (valLong a) →
    setField m.mem.heap m.accu 0 (valLong (wrap (a.toInt + n.toInt))) = .ok heap →
    machineStep rt act (.next m) = .ok (.next { m with
      pc := m.pc + 8#64, accu := valUnit, mem := { m.mem with heap := heap } })
  branch : ∀ (ω : Type) (rt : Runtime ω) (act : Activation) (m : Machine ω) (a : Long)
    (op : Opcode) (tst : Int → Int → Bool) (ofs : OpcodeWord), branchOf op = some tst →
    Holds m.mem.code m.pc [op.code, n, ofs] → m.accu = valLong a →
    machineStep rt act (.next m) = .ok (.next { m with
      pc := if tst n.toInt a.toInt then m.pc + 8#64 + BitVec.ofInt 64 (4 * ofs.toInt)
        else m.pc + 12#64 })

/-- An operand widened to an `intnat` is compared as the integer it is. -/
theorem branch_word {tst : BitVec 64 → BitVec 64 → Bool} {t : Int → Int → Bool}
    (h : ∀ x y, tst x y = t x.toInt y.toInt) (n : OpcodeWord) (a : Long) :
    tst (n.signExtend 64) (longVal64 (tagged a)) = t n.toInt a.toInt := by
  have ha := toInt_bounds a
  rw [h, BitVec.toInt_signExtend_of_le (by decide), longVal64_tagged, BitVec.toInt_ofInt,
    Int.bmod_eq_of_le (by omega) (by omega)]

/-- A fused comparison of two tagged words. -/
theorem branchComparison_tagged {tst : BitVec 64 → BitVec 64 → Bool} {t : Int → Int → Bool}
    {n ofs : OpcodeWord} (h : ∀ x y, tst x y = t x.toInt y.toInt) (ha : c.accu = valLong a)
    (hn : c.operand = n) (hofs : c.advance.operand = ofs) :
    branchComparison tst c = .ok { c with
      pc := if t n.toInt a.toInt then c.pc + 4#64 + BitVec.ofInt 64 (4 * ofs.toInt)
        else c.pc + 8#64 } := by
  have hword : wordOf c.accu = .ok (tagged a) := by
    rw [ha]
    rfl
  unfold branchComparison branchWhen
  rw [hword]
  show Except.ok (if tst (c.operand.signExtend 64) (longVal64 (tagged a)) = true then _ else _) = _
  rw [hn, branch_word h, ← pc_eight, ← hofs]
  split
  · rfl
  · rfl

theorem beq_toInt (x y : BitVec 64) : (x == y) = decide (x.toInt = y.toInt) := by
  by_cases h : x = y
  · rw [h, beq_self_eq_true, decide_eq_true rfl]
  · rw [beq_eq_false_iff_ne.mpr h, decide_eq_false (fun e => h (BitVec.eq_of_toInt_eq e))]

/-- The case of a branch instruction. -/
theorem exec_branchOf {op : Opcode} {t : Int → Int → Bool} {n ofs : OpcodeWord}
    (hop : branchOf op = some t) (ha : m.accu = valLong a) (hn : m.operand = n)
    (hofs : m.toCore.advance.operand = ofs) :
    CamlUpstream.exec rt act op m = .ok (.next { m with
      pc := if t n.toInt a.toInt then m.pc + 4#64 + BitVec.ofInt 64 (4 * ofs.toInt)
        else m.pc + 8#64 }) := by
  have hnext : ∀ {tst : BitVec 64 → BitVec 64 → Bool},
      (∀ x y, tst x y = t x.toInt y.toInt) → thenNext (branchComparison tst) m = .ok (.next { m with
        pc := if t n.toInt a.toInt then m.pc + 4#64 + BitVec.ofInt 64 (4 * ofs.toInt)
          else m.pc + 8#64 }) := by
    intro tst h
    unfold thenNext onCore
    rw [branchComparison_tagged h ha hn hofs]
    rfl
  cases op with
  | BEQ =>
      cases hop
      exact hnext beq_toInt
  | BNEQ =>
      cases hop
      refine hnext (fun x y => ?_)
      show (x != y) = decide (¬ x.toInt = y.toInt)
      rw [decide_not, ← beq_toInt]
      rfl
  | BLTINT =>
      cases hop
      exact hnext (fun x y => rfl)
  | BLEINT =>
      cases hop
      exact hnext (fun x y => rfl)
  | BGTINT =>
      cases hop
      exact hnext (fun x y => rfl)
  | BGEINT =>
      cases hop
      exact hnext (fun x y => rfl)
  | _ => cases hop

theorem constint_step {n : OpcodeWord} (h : Holds m.mem.code m.pc [Opcode.CONSTINT.code, n]) :
    machineStep rt act (.next m) =
      .ok (.next { m with pc := m.pc + 8#64, accu := valLong (wrap n.toInt) }) := by
  obtain ⟨hop, hn, -⟩ := h
  rw [step_at hop, ← pc_eight, ← hn]
  rfl

theorem branch_step {op : Opcode} {t : Int → Int → Bool} {n ofs : OpcodeWord}
    (hop : branchOf op = some t) (h : Holds m.mem.code m.pc [op.code, n, ofs])
    (ha : m.accu = valLong a) :
    machineStep rt act (.next m) = .ok (.next { m with
      pc := if t n.toInt a.toInt then m.pc + 8#64 + BitVec.ofInt 64 (4 * ofs.toInt)
        else m.pc + 12#64 }) := by
  obtain ⟨hcode, hn, hofs, -⟩ := h
  have hpc : m.pc + 4#64 + 8#64 = m.pc + 12#64 := BitVec.add_assoc _ _ _
  rw [step_at hcode, exec_branchOf (m := { m with toCore := m.toCore.advance }) hop ha hn hofs,
    ← pc_eight m.pc, ← hpc]
  rfl

/-- `OFFSETREF` adds to the integer in a reference. -/
theorem offsetref_step {n : OpcodeWord} {z : Int} {heap : Heap}
    (h : Holds m.mem.code m.pc [Opcode.OFFSETREF.code, n])
    (hz : BitVec.ofInt 64 ((2 * n.toInt).bmod (2 ^ 32)) = BitVec.ofInt 64 (2 * z))
    (hf : field m.mem.heap m.accu 0 = .ok (valLong a))
    (hset : setField m.mem.heap m.accu 0 (valLong (wrap (a.toInt + z))) = .ok heap) :
    machineStep rt act (.next m) = .ok (.next { m with
      pc := m.pc + 8#64, accu := valUnit, mem := { m.mem with heap := heap } }) := by
  obtain ⟨hop, hn, -⟩ := h
  have hoperand : m.toCore.advance.operand = n := hn
  have htwice := operandTwice_eq m.toCore.advance
  rw [hoperand, hz] at htwice
  have hword : tagged a + operandTwice m.toCore.advance = tagged (wrap (a.toInt + z)) :=
    offset_word htwice
  have hbody : offsetref m.toCore.advance = .ok { m.toCore.advance.advance with
      accu := valUnit, mem := { m.mem with heap := heap } } := by
    refine bind_eq_ok.mpr ⟨_, hf, bind_eq_ok.mpr ⟨tagged a, rfl, bind_eq_ok.mpr ⟨heap, ?_, rfl⟩⟩⟩
    rw [hword]
    exact hset
  rw [step_at hop, ← pc_eight]
  show thenNext offsetref _ = _
  unfold thenNext onCore
  show ((offsetref m.toCore.advance >>= _) >>= _) = _
  rw [hbody]
  rfl

/-- Adding an operand to 0. -/
def offsetting (n : OpcodeWord) : Machine Unit where
  pc := 0x1000#64
  sp := []
  accu := valInt 0
  env := .atom 0
  extraArgs := 0#63
  mem := ⟨⟨[]⟩, assemble 0x1000#64 [Opcode.OFFSETINT.code, n], valUnit, valUnit⟩
  dom := domainOf [mainStack] 0

/-- What the shift loses is missing from the sum. -/
theorem range_of_accommodated {n : OpcodeWord} (h : Accommodated n) :
    -2 ^ 30 ≤ n.toInt ∧ n.toInt < 2 ^ 30 := by
  have hbound := BitVec.toInt_lt (x := n)
  have hbound' := BitVec.le_toInt n
  have hcode : Holds (offsetting n).mem.code (offsetting n).pc [Opcode.OFFSETINT.code, n] :=
    ⟨rfl, rfl, trivial⟩
  -- what the code adds instead, an integer of 31 bits
  have hhalf : 2 * ((2 * n.toInt).bmod (2 ^ 32) / 2) = (2 * n.toInt).bmod (2 ^ 32) := by
    simp only [Int.bmod_def]
    omega
  have hstep := h.offsetint Unit quiet soleActivation (offsetting n) 0#63 hcode rfl
  rw [offsetint_step (z := (2 * n.toInt).bmod (2 ^ 32) / 2) hcode (by rw [hhalf]) rfl] at hstep
  have hval : valLong (wrap (0 + (2 * n.toInt).bmod (2 ^ 32) / 2)) = valLong (wrap (0 + n.toInt)) :=
    congrArg (fun c : Ctl (Machine Unit) => c.state.accu) (Except.ok.inj hstep)
  have hint := congrArg BitVec.toInt (tagged_injective (Value.word.inj hval))
  unfold wrap at hint
  rw [BitVec.toInt_ofInt, BitVec.toInt_ofInt] at hint
  simp only [Int.bmod_def] at hint
  omega

/-- **IMMEDIATE OPERANDS**: an operand is accommodated if and only if it survives
    being doubled in 32 bits. -/
theorem accommodated_iff (n : OpcodeWord) :
    Accommodated n ↔ -2 ^ 30 ≤ n.toInt ∧ n.toInt < 2 ^ 30 := by
  constructor
  · exact range_of_accommodated
  · rintro ⟨h1, h2⟩
    have hz := doubled_small h1 h2
    exact ⟨fun ω rt act m h => constint_step h, fun ω rt act m a h ha => offsetint_step h hz ha,
      fun ω rt act m a heap h hf hset => offsetref_step h hz hf hset,
      fun ω rt act m a op t ofs hop h ha => branch_step hop h ha⟩

/-- The smallest operand that is not accommodated. -/
theorem accommodated_wide : ¬ Accommodated 0x40000000#32 := by
  intro h
  exact absurd (range_of_accommodated h).2 (by decide)

end CamlArith
