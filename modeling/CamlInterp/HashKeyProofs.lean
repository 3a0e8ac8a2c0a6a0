import CamlInterp.HashTableProofs
import Mathlib.Data.Nat.ModEq
import Mathlib.Data.Set.Card

/-! # What `hash_key` mixes

    The shifts of `hash_key` add up to the multiplication by one odd constant, so it
    permutes the 64-bit words.  A slot is taken from the low bits of the product, and
    those depend on the same low bits of the key only. -/

namespace CamlHashKey

open CamlValue CamlHashTable

/-! ## Low bits of a product -/

section LowBits

variable {m d x y i b : Nat}

/-- A factor that is prime to `d` keeps keys apart modulo `d`. -/
theorem mul_mod_eq_iff (hm : Nat.gcd d m = 1) :
    x * m % d = y * m % d ↔ x % d = y % d := by
  constructor
  · exact fun h => Nat.ModEq.cancel_right_of_coprime hm h
  · exact fun h => Nat.ModEq.mul_right m h

/-- A factor that is 1 modulo `d` does not move a key modulo `d`. -/
theorem mul_mod_of_mod_one (hm : m % d = 1 % d) : x * m % d = x % d := by
  have h : x * m % d = x * 1 % d := Nat.ModEq.mul_left x hm
  rw [h, Nat.mul_one]

/-- An odd number is prime to every power of two. -/
theorem gcd_two_pow (hm : m % 2 = 1) (b : Nat) : Nat.gcd (2 ^ b) m = 1 := by
  refine Nat.Coprime.pow_left b ?_
  rw [Nat.Coprime, Nat.gcd_rec, hm, Nat.gcd_one_left]

/-- What multiples of four are modulo a power of two. -/
theorem four_dvd_mod (hx : x % 4 = 0) (hi : i = x % 2 ^ b) :
    ∃ j, j < (2 ^ b + 3) / 4 ∧ i = 4 * j := by
  have hlt : i < 2 ^ b := by
    rw [hi]
    exact Nat.mod_lt _ (Nat.two_pow_pos b)
  -- one or two slots divide four, and in larger tables four divides the slots
  rcases Nat.lt_or_ge b 2 with hb | hb
  · have hdvd : 2 ^ b ∣ 4 := pow_dvd_pow 2 (Nat.le_of_lt hb)
    have hzero : x % 2 ^ b = 0 := Nat.mod_eq_zero_of_dvd
      (Nat.dvd_trans hdvd (Nat.dvd_of_mod_eq_zero hx))
    have hpos := Nat.two_pow_pos b
    exact ⟨0, by omega, by omega⟩
  · have hdvd : 4 ∣ 2 ^ b := pow_dvd_pow 2 hb
    have hi4 : i % 4 = 0 := by
      rw [hi, Nat.mod_mod_of_dvd x hdvd]
      exact hx
    exact ⟨i / 4, by omega, by omega⟩

end LowBits

/-! ## The hash -/

/-- The constant that the shifts add up to, and its inverse modulo 2^64. -/
def multiplier : BitVec 64 := 0x9E37FFFFFFFC0001#64
def inverse : BitVec 64 := 0x6208001000040001#64

theorem shiftLeft_eq_mul (n : BitVec 64) (i : Nat) : n <<< i = n * BitVec.ofNat 64 (2 ^ i) := by
  refine BitVec.eq_of_toNat_eq ?_
  rw [BitVec.toNat_shiftLeft, BitVec.toNat_mul, BitVec.toNat_ofNat, Nat.mul_mod_mod,
    Nat.shiftLeft_eq]

/-- **THE CONSTANT**: the chain of shifts is one multiplication. -/
theorem hashKey_eq (key : CodePtr) : hashKey key = key * multiplier := by
  unfold hashKey multiplier
  simp only [shiftLeft_eq_mul]
  grind

/-- The constant has an inverse, so the hash is a permutation of the words. -/
theorem hashKey_bijective : Function.Bijective hashKey := by
  have hinv : multiplier * inverse = 1#64 := by decide
  constructor
  · intro k k' h
    have hmul := congrArg (· * inverse) h
    simp only [hashKey_eq, BitVec.mul_assoc, hinv, BitVec.mul_one] at hmul
    exact hmul
  · intro w
    refine ⟨w * inverse, ?_⟩
    rw [hashKey_eq, BitVec.mul_assoc, BitVec.mul_comm inverse, hinv, BitVec.mul_one]

/-! ## The home slot -/

variable {b : Nat} {k k' : CodePtr}

/-- The mask of a table with 2^b slots keeps the low bits of the product. -/
theorem homeOf_two_pow (hb : b ≤ 64) (k : CodePtr) :
    homeOf (BitVec.ofNat 64 (2 ^ b)) k = k.toNat * multiplier.toNat % 2 ^ b := by
  have hdvd : 2 ^ b ∣ 2 ^ 64 := pow_dvd_pow 2 hb
  have hmask : (BitVec.ofNat 64 (2 ^ b) - 1#64).toNat = 2 ^ b - 1 := by
    have hpos := Nat.two_pow_pos b
    have hle := Nat.le_of_dvd (by decide) hdvd
    -- at b = 64 the capacity wraps to 0 and the mask keeps every bit
    rcases Nat.lt_or_eq_of_le hle with hlt | heq
    · have hpow : (BitVec.ofNat 64 (2 ^ b)).toNat = 2 ^ b := Nat.mod_eq_of_lt hlt
      rw [BitVec.toNat_sub, hpow]
      show (2 ^ 64 - 1 + 2 ^ b) % 2 ^ 64 = _
      omega
    · rw [heq]
      rfl
  unfold homeOf slotOf
  rw [BitVec.toNat_and, hmask, Nat.and_two_pow_sub_one_eq_mod, hashKey_eq, BitVec.toNat_mul,
    Nat.mod_mod_of_dvd _ hdvd]

/-- Two keys have one home exactly when their low bits agree. -/
theorem homeOf_eq_iff (hb : b ≤ 64) :
    homeOf (BitVec.ofNat 64 (2 ^ b)) k = homeOf (BitVec.ofNat 64 (2 ^ b)) k' ↔
      k.toNat % 2 ^ b = k'.toNat % 2 ^ b := by
  rw [homeOf_two_pow hb, homeOf_two_pow hb]
  exact mul_mod_eq_iff (gcd_two_pow (by decide) b)

/-- The constant is 1 in its low 18 bits. -/
theorem homeOf_eq_mod (hb : b ≤ 18) (k : CodePtr) :
    homeOf (BitVec.ofNat 64 (2 ^ b)) k = k.toNat % 2 ^ b := by
  have hdvd : 2 ^ b ∣ 2 ^ 18 := pow_dvd_pow 2 hb
  rw [homeOf_two_pow (by omega)]
  refine mul_mod_of_mod_one ?_
  have h18 : multiplier.toNat % 2 ^ 18 = 1 % 2 ^ 18 := by decide
  rw [← Nat.mod_mod_of_dvd _ hdvd, h18, Nat.mod_mod_of_dvd _ hdvd]

/-- The slots that 4-byte-aligned keys have for homes. -/
def alignedHomes (capacity : BitVec 64) : Set Nat :=
  {i | ∃ k : CodePtr, k.toNat % 4 = 0 ∧ homeOf capacity k = i}

/-- They are at most a quarter of the slots, rounded up to whole slots. -/
theorem ncard_alignedHomes (hb : b ≤ 64) :
    (alignedHomes (BitVec.ofNat 64 (2 ^ b))).ncard ≤ (2 ^ b + 3) / 4 := by
  have hsub : alignedHomes (BitVec.ofNat 64 (2 ^ b)) ⊆
      (((Finset.range ((2 ^ b + 3) / 4)).image (4 * ·) : Finset Nat) : Set Nat) := by
    rintro i ⟨k, hk, hi⟩
    rw [homeOf_two_pow hb] at hi
    obtain ⟨j, hj, hij⟩ := four_dvd_mod (x := k.toNat * multiplier.toNat)
      (by rw [Nat.mul_mod, hk, Nat.zero_mul, Nat.zero_mod]) hi.symm
    rw [Finset.coe_image]
    exact ⟨j, Finset.mem_coe.mpr (Finset.mem_range.mpr hj), hij.symm⟩
  have hcard := Set.ncard_le_ncard hsub (Finset.finite_toSet _)
  rw [Set.ncard_coe_finset] at hcard
  refine Nat.le_trans hcard (Nat.le_trans Finset.card_image_le ?_)
  rw [Finset.card_range]

/-- **HASH**: the hash is the multiplication by an odd constant, a permutation of the
    words; the home slot is a function of the low bits of the key, the low bits
    themselves in tables of up to 2^18 slots, and aligned keys share a quarter of
    the slots. -/
theorem hashKey_mixes :
    (∀ key : CodePtr, hashKey key = key * 0x9E37FFFFFFFC0001#64) ∧
    Function.Bijective hashKey ∧
    ∀ b ≤ 64,
      (∀ k k' : CodePtr, k.toNat % 2 ^ b = k'.toNat % 2 ^ b →
        slotOf (BitVec.ofNat 64 (2 ^ b)) k = slotOf (BitVec.ofNat 64 (2 ^ b)) k') ∧
      (b ≤ 18 → ∀ k : CodePtr, homeOf (BitVec.ofNat 64 (2 ^ b)) k = k.toNat % 2 ^ b) ∧
      (∀ k k' : CodePtr, homeOf (BitVec.ofNat 64 (2 ^ b)) k = homeOf (BitVec.ofNat 64 (2 ^ b)) k' ↔
        k.toNat % 2 ^ b = k'.toNat % 2 ^ b) ∧
      (alignedHomes (BitVec.ofNat 64 (2 ^ b))).ncard ≤ (2 ^ b + 3) / 4 ∧
      (2 ≤ b → (alignedHomes (BitVec.ofNat 64 (2 ^ b))).ncard * 4 ≤ 2 ^ b) := by
  refine ⟨hashKey_eq, hashKey_bijective, fun b hb => ⟨fun k k' h => ?_,
    fun h18 k => homeOf_eq_mod h18 k, fun k k' => homeOf_eq_iff hb, ncard_alignedHomes hb,
    fun h2 => ?_⟩⟩
  · exact BitVec.eq_of_toNat_eq ((homeOf_eq_iff hb).mpr h)
  · have hcard := ncard_alignedHomes hb
    have hdvd : 4 ∣ 2 ^ b := pow_dvd_pow 2 h2
    omega

end CamlHashKey
