import CamlInterp.LocalProofs
import CamlInterp.TrapProofs

/-! # Towers — one stack with two kinds of trap links

    `interp.c` stores in a trap frame the offset of the next one from
    `Stack_high`, `interp-ali.c` the distance to it.  A place in a stack is named
    by the number of words from there to the other end; a frame at height `h` has
    its handler at `h` and its link at `h - 1`.  Two stacks form a tower when they
    differ in the links alone, and the links of both lead through the same frames. -/

namespace CamlTower

open CellStore CamlValue CamlOpcode CamlMachine CamlControl CamlLocal

/-! ## The frames the links lead through -/

/-- The link of the frame at height `h`. -/
def linkOf (sp : List Value) (h : Nat) : C Long := do
  longVal (← spAt sp (sp.length - h + 1))

/-- The heights of the frames that links of `interp.c` lead through, from
    `trap_sp_off` on. -/
def offsetFrames (sp : List Value) : Nat → Long → List Nat
  | 0, _ => []
  | fuel + 1, off =>
      if 0 < off.toInt then []
      else
        let h := (-off.toInt).toNat
        match linkOf sp h with
        | .ok next => h :: offsetFrames sp fuel next
        | .error _ => [h]

/-- The same for links of `interp-ali.c`, from `trapsp` on up to the words of the
    activation's caller. -/
def distanceFrames (initial : Int) (sp : List Value) : Nat → Int → List Nat
  | 0, _ => []
  | fuel + 1, trapsp =>
      if trapsp ≤ initial then []
      else
        match linkOf sp trapsp.toNat with
        | .ok d => trapsp.toNat :: distanceFrames initial sp fuel (trapsp - d.toInt)
        | .error _ => [trapsp.toNat]

/-! ## Towers -/

/-- The two stacks from the innermost link on, with `trap_sp_off`, `trapsp` and the
    heights of the frames.  Every frame is above the `base` words of the caller. -/
inductive Tower (base : Nat) :
    List Value → List Value → Long → Int → List Nat → Prop where
  | bottom {t : Int} : 0 ≤ t → t ≤ base → Tower base [] [] 1#63 t []
  | frame {mid s s' : List Value} {off : Long} {t : Int} {fs : List Nat} {h : Nat}
      (e x : Value) : Tower base s s' off t fs → h = (mid ++ s).length + 4 → base < h →
      8 * h < 2 ^ 64 →
      Tower base (valLong off :: e :: x :: (mid ++ s))
        (valLong (BitVec.ofInt 63 (h - t)) :: e :: x :: (mid ++ s'))
        (BitVec.ofInt 63 (-(h : Int))) h (h :: fs)

variable {base : Nat} {s s' top : List Value} {off : Long} {t : Int} {fs : List Nat}

theorem toInt_small {z : Int} (h : -2305843009213693952 < z) (h' : z < 2305843009213693952) :
    (BitVec.ofInt 63 z).toInt = z := by
  rw [BitVec.toInt_ofInt, Int.bmod_eq_of_le]
  · omega
  · omega

theorem Tower.length_eq (ht : Tower base s s' off t fs) : s'.length = s.length := by
  induction ht with
  | bottom => rfl
  | frame e x _ _ _ _ ih =>
      simp only [List.length_cons, List.length_append, ih]

theorem Tower.nil (ht : Tower base s s' off t []) : s = [] ∧ s' = [] := by
  cases ht with
  | bottom => exact ⟨rfl, rfl⟩

/-- The innermost link is on top. -/
theorem Tower.head {h : Nat} (ht : Tower base s s' off t (h :: fs)) : h = s.length + 1 := by
  cases ht with
  | frame e x _ hh _ _ =>
      simp only [List.length_cons]
      exact hh

/-- `trapsp` lies in the stack. -/
theorem Tower.trapsp_nonneg (ht : Tower base s s' off t fs) : 0 ≤ t := by
  cases ht with
  | bottom h0 _ => exact h0
  | frame e x _ _ _ _ => omega

theorem Tower.trapsp_small (ht : Tower base s s' off t fs) (hb : base < 2 ^ 61) :
    t < 2305843009213693952 := by
  cases ht with
  | bottom _ h => omega
  | frame e x _ _ _ hfit => omega

theorem Tower.mem_le (ht : Tower base s s' off t fs) {h : Nat} (hm : h ∈ fs) :
    4 ≤ h ∧ h ≤ s.length + 1 := by
  induction ht with
  | bottom => cases hm
  | frame e x _ hh _ _ ih =>
      simp only [List.length_cons, List.length_append] at hh ⊢
      rcases List.mem_cons.mp hm with rfl | hm
      · omega
      · have := ih hm
        omega

theorem Tower.frames_le (ht : Tower base s s' off t fs) : fs.length ≤ s.length := by
  induction ht with
  | bottom => exact Nat.le_refl _
  | frame e x _ _ _ _ ih =>
      simp only [List.length_cons, List.length_append]
      omega

theorem linkOf_append {off : Long} {rest : List Value} {h : Nat} (hh : h = rest.length + 2) :
    linkOf (top ++ valLong off :: rest) h = .ok off := by
  have hi : ((top ++ valLong off :: rest).length : Int) - h + 1 = top.length := by
    rw [List.length_append, List.length_cons]
    omega
  unfold linkOf
  rw [hi]
  unfold spAt
  rw [if_pos (Int.natCast_nonneg _), Int.toNat_natCast, List.getElem?_append_right (Nat.le_refl _),
    Nat.sub_self]
  exact longVal_valLong off

/-- The offsets lead through the frames of the tower. -/
theorem Tower.offsets (ht : Tower base s s' off t fs) (top : List Value) {fuel : Nat}
    (hf : fs.length ≤ fuel) : offsetFrames (top ++ s) fuel off = fs := by
  induction ht generalizing top fuel with
  | bottom =>
      cases fuel with
      | zero => rfl
      | succ fuel => rfl
  | @frame mid s s' off t fs h e x ht hh hbase hfit ih =>
      obtain ⟨fuel, rfl⟩ : ∃ k, fuel = k + 1 := ⟨fuel - 1, by rw [List.length_cons] at hf; omega⟩
      have hoff : (BitVec.ofInt 63 (-(h : Int))).toInt = -(h : Int) :=
        toInt_small (by omega) (by omega)
      have hlink : linkOf (top ++ valLong off :: e :: x :: (mid ++ s)) h = .ok off :=
        linkOf_append (by simp only [List.length_cons]; omega)
      have hre : top ++ valLong off :: e :: x :: (mid ++ s)
          = (top ++ valLong off :: e :: x :: mid) ++ s := by simp
      unfold offsetFrames
      rw [hoff, if_neg (by omega)]
      simp only [Int.neg_neg, Int.toNat_natCast, hlink]
      rw [hre, ih _ (Nat.le_of_succ_le_succ hf)]

/-- The distances lead through the same frames. -/
theorem Tower.distances (ht : Tower base s s' off t fs) (hb : base < 2 ^ 61) (top : List Value)
    {fuel : Nat} (hf : fs.length ≤ fuel) : distanceFrames base (top ++ s') fuel t = fs := by
  induction ht generalizing top fuel with
  | bottom h0 hle =>
      cases fuel with
      | zero => rfl
      | succ fuel => exact if_pos hle
  | @frame mid s s' off t fs h e x ht hh hbase hfit ih =>
      obtain ⟨fuel, rfl⟩ : ∃ k, fuel = k + 1 := ⟨fuel - 1, by rw [List.length_cons] at hf; omega⟩
      have hdist : (BitVec.ofInt 63 ((h : Int) - t)).toInt = h - t := by
        have h0 := ht.trapsp_nonneg
        have h1 := ht.trapsp_small hb
        exact toInt_small (by omega) (by omega)
      have hlink : linkOf (top ++ valLong (BitVec.ofInt 63 (h - t)) :: e :: x :: (mid ++ s')) h
          = .ok (BitVec.ofInt 63 (h - t)) := by
        refine linkOf_append ?_
        rw [List.length_append] at hh
        simp only [List.length_cons, List.length_append, ht.length_eq]
        omega
      have hre : top ++ valLong (BitVec.ofInt 63 (h - t)) :: e :: x :: (mid ++ s')
          = (top ++ valLong (BitVec.ofInt 63 (h - t)) :: e :: x :: mid) ++ s' := by simp
      -- the frame is above the caller's words, so the link is followed
      unfold distanceFrames
      rw [if_neg (by omega), Int.toNat_natCast, hlink]
      simp only [hdist, Int.sub_sub_self]
      rw [hre, ih _ (Nat.le_of_succ_le_succ hf)]

/-! ## Words that are not links -/

/-- The two stacks agree at every height that is not the one of a link. -/
theorem Tower.word_eq (ht : Tower base s s' off t fs) {j : Nat} (hj : s.length - j + 1 ∉ fs) :
    s'[j]? = s[j]? := by
  induction ht generalizing j with
  | bottom => rfl
  | @frame mid s s' off t fs h e x ht hh hbase hfit ih =>
      match j with
      | 0 =>
          -- the link itself
          refine absurd ?_ hj
          simp only [List.length_cons]
          exact List.mem_cons.mpr (Or.inl (by omega))
      | 1 => rfl
      | 2 => rfl
      | j + 3 =>
          show (mid ++ s')[j]? = (mid ++ s)[j]?
          by_cases hm : j < mid.length
          · rw [List.getElem?_append_left hm, List.getElem?_append_left hm]
          · rw [List.getElem?_append_right (Nat.le_of_not_lt hm),
              List.getElem?_append_right (Nat.le_of_not_lt hm)]
            by_cases hs : j - mid.length < s.length
            · -- in the tower below, where heights are the same
              refine ih (fun hmem => hj (List.mem_cons.mpr (Or.inr ?_)))
              simp only [List.length_cons, List.length_append]
              have hpos : mid.length + s.length + 1 + 1 + 1 - (j + 3)
                  = s.length - (j - mid.length) := by omega
              rw [hpos]
              exact hmem
            · have hlen := ht.length_eq
              rw [List.getElem?_eq_none (by omega), List.getElem?_eq_none (by omega)]

/-- Writing the same word at such a height keeps the tower. -/
theorem Tower.set (ht : Tower base s s' off t fs) {j : Nat} (hj : s.length - j + 1 ∉ fs)
    (v : Value) : Tower base (s.set j v) (s'.set j v) off t fs := by
  induction ht generalizing j with
  | bottom h0 h => exact Tower.bottom h0 h
  | @frame mid s s' off t fs h e x ht hh hbase hfit ih =>
      match j with
      | 0 =>
          refine absurd ?_ hj
          simp only [List.length_cons]
          exact List.mem_cons.mpr (Or.inl (by omega))
      | 1 => exact Tower.frame v x ht hh hbase hfit
      | 2 => exact Tower.frame e v ht hh hbase hfit
      | j + 3 =>
          show Tower base (valLong off :: e :: x :: (mid ++ s).set j v)
            (_ :: e :: x :: (mid ++ s').set j v) _ _ _
          by_cases hm : j < mid.length
          · rw [List.set_append_left _ _ hm, List.set_append_left _ _ hm]
            refine Tower.frame e x ht ?_ hbase hfit
            rw [List.length_append, List.length_set, ← List.length_append]
            exact hh
          · rw [List.set_append_right _ _ (Nat.le_of_not_lt hm),
              List.set_append_right _ _ (Nat.le_of_not_lt hm)]
            refine Tower.frame e x (ih (fun hmem => ?_)) ?_ hbase hfit
            · have hle := (ht.mem_le hmem).2
              by_cases hs : j - mid.length < s.length
              · refine hj (List.mem_cons.mpr (Or.inr ?_))
                simp only [List.length_cons, List.length_append]
                have hpos : mid.length + s.length + 1 + 1 + 1 - (j + 3)
                    = s.length - (j - mid.length) := by omega
                rw [hpos]
                exact hmem
              · have := (ht.mem_le hmem).1
                omega
            · rw [List.length_append, List.length_set, ← List.length_append]
              exact hh

/-- The same under more words. -/
theorem Tower.spAt_eq (ht : Tower base s s' off t fs) (top : List Value) {i : Int}
    (hi : ∀ h ∈ fs, ((top ++ s).length : Int) - i ≠ h - 1) :
    spAt (top ++ s') i = spAt (top ++ s) i := by
  unfold spAt
  by_cases h0 : 0 ≤ i
  · rw [if_pos h0, if_pos h0]
    by_cases hlt : i.toNat < top.length
    · rw [List.getElem?_append_left hlt, List.getElem?_append_left hlt]
    · rw [List.getElem?_append_right (Nat.le_of_not_lt hlt),
        List.getElem?_append_right (Nat.le_of_not_lt hlt), ht.word_eq]
      intro hm
      have hle := ht.mem_le hm
      refine hi _ hm ?_
      rw [List.length_append]
      omega
  · rw [if_neg h0, if_neg h0]

/-- A word that is no link is set on both stacks. -/
theorem Tower.spSet_eq (ht : Tower base s s' off t fs) (top : List Value) {i : Int}
    (hi : ∀ h ∈ fs, ((top ++ s).length : Int) - i ≠ h - 1) (v : Value) :
    (spSet (top ++ s) i v = .error .undefined ∧ spSet (top ++ s') i v = .error .undefined) ∨
      ∃ top' r r', spSet (top ++ s) i v = .ok (top' ++ r) ∧
        spSet (top ++ s') i v = .ok (top' ++ r') ∧ Tower base r r' off t fs := by
  have hlen : (top ++ s').length = (top ++ s).length := by
    rw [List.length_append, List.length_append, ht.length_eq]
  unfold spSet
  rw [hlen]
  by_cases hin : 0 ≤ i ∧ i.toNat < (top ++ s).length
  · rw [if_pos hin, if_pos hin]
    refine Or.inr ?_
    by_cases hlt : i.toNat < top.length
    · exact ⟨top.set i.toNat v, s, s', by rw [List.set_append_left _ _ hlt],
        by rw [List.set_append_left _ _ hlt], ht⟩
    · refine ⟨top, s.set (i.toNat - top.length) v, s'.set (i.toNat - top.length) v,
        by rw [List.set_append_right _ _ (Nat.le_of_not_lt hlt)],
        by rw [List.set_append_right _ _ (Nat.le_of_not_lt hlt)], ht.set ?_ v⟩
      intro hm
      have hle := ht.mem_le hm
      refine hi _ hm ?_
      rw [List.length_append]
      omega
  · rw [if_neg hin, if_neg hin]
    exact Or.inl ⟨rfl, rfl⟩

end CamlTower
