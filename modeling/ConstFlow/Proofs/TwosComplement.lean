import ConstFlow.Operator

/-!
# Folding is arithmetic of 32-bit words

Operators are folded over integers of any size, which are wrapped before and after. Here the same
operators are given on bit vectors, as a machine has them (`onBits`), and folding is shown to
compute the signed value of that. Wrapping an integer is reading its lowest 32 bits as a signed
number (`Int32.wrap_eq_toInt`), so all that is left is that the operations on unbounded integers
agree with those on bits (`ofInt_fold`). This is true also of divisors that are zero; that `apply`
rules them out is its own affair.
-/

namespace ConstFlow

namespace Int32

theorem wrap_eq_toInt (v : Int) : wrap v = (BitVec.ofInt 32 v).toInt := by
  rw [wrap_eq_bmod, BitVec.toInt_ofInt]

/-! ## Bits of unbounded integers -/

theorem ofInt_bitNot (v : Int) : BitVec.ofInt 32 (bitNot v) = ~~~BitVec.ofInt 32 v := by
  rw [bitNot, Int.sub_eq_add_neg, BitVec.ofInt_add, BitVec.ofInt_neg, BitVec.not_eq_neg_add,
    BitVec.sub_eq_add_neg]
  rfl

theorem ofInt_bitAnd (a b : Int) :
    BitVec.ofInt 32 (bitAnd a b) = BitVec.ofInt 32 a &&& BitVec.ofInt 32 b := by
  cases a with
  | ofNat m =>
      cases b with
      | ofNat n => simp [bitAnd, BitVec.ofNat_and]
      | negSucc n => simp [bitAnd, BitVec.ofInt_negSucc_eq_not_ofNat, ofNat_bitDiff]
  | negSucc m =>
      cases b with
      | ofNat n => simp [bitAnd, BitVec.ofInt_negSucc_eq_not_ofNat, ofNat_bitDiff, BitVec.and_comm]
      | negSucc n =>
          simp [bitAnd, BitVec.ofInt_negSucc_eq_not_ofNat, BitVec.ofNat_or, BitVec.not_or]

theorem ofInt_bitOr (a b : Int) :
    BitVec.ofInt 32 (bitOr a b) = BitVec.ofInt 32 a ||| BitVec.ofInt 32 b := by
  rw [bitOr, ofInt_bitNot, ofInt_bitAnd, ofInt_bitNot, ofInt_bitNot, BitVec.not_and, BitVec.not_not,
    BitVec.not_not]

theorem ofInt_bitXor (a b : Int) :
    BitVec.ofInt 32 (bitXor a b) = BitVec.ofInt 32 a ^^^ BitVec.ofInt 32 b := by
  cases a with
  | ofNat m =>
      cases b with
      | ofNat n => simp [bitXor, BitVec.ofNat_xor]
      | negSucc n =>
          simp [bitXor, BitVec.ofInt_negSucc_eq_not_ofNat, BitVec.ofNat_xor, BitVec.not_xor_right]
  | negSucc m =>
      cases b with
      | ofNat n =>
          simp [bitXor, BitVec.ofInt_negSucc_eq_not_ofNat, BitVec.ofNat_xor, BitVec.not_xor_left]
      | negSucc n =>
          simp [bitXor, BitVec.ofInt_negSucc_eq_not_ofNat, BitVec.ofNat_xor, ← BitVec.not_xor_left,
            ← BitVec.not_xor_right]

end Int32

namespace Operator

/-! ## Operators on words -/

/-- The word one for true, zero for false. -/
def flag (p : Bool) : BitVec 32 := if p then 1#32 else 0#32

/-- An operator on 32-bit words. Arithmetic is modular, division and comparison are signed, and a
shift takes its count modulo 32. -/
def onBits : Operator → BitVec 32 → BitVec 32 → BitVec 32
  | add, x, y => x + y
  | sub, x, y => x - y
  | mul, x, y => x * y
  | div, x, y => x.sdiv y
  | rem, x, y => x.srem y
  | eq, x, y => flag (x = y)
  | ne, x, y => flag (x ≠ y)
  | lt, x, y => flag (x.slt y)
  | gt, x, y => flag (y.slt x)
  | le, x, y => flag (x.sle y)
  | ge, x, y => flag (y.sle x)
  | shl, x, y => x <<< (y.toNat % 32)
  | shr, x, y => x.sshiftRight (y.toNat % 32)
  | and, x, y => x &&& y
  | or, x, y => x ||| y
  | xor, x, y => x ^^^ y

theorem ofInt_truth (p : Bool) : BitVec.ofInt 32 (truth p) = flag p := by
  cases p <;> rfl

theorem places_toInt (y : BitVec 32) : places y.toInt = y.toNat % 32 := by
  rw [places, BitVec.toInt_eq_toNat_cond]
  split <;> omega

theorem ofInt_div (x y : BitVec 32) : BitVec.ofInt 32 (x.toInt.tdiv y.toInt) = x.sdiv y := by
  refine BitVec.eq_of_toInt_eq ?_
  rw [BitVec.toInt_ofInt, BitVec.toInt_sdiv]

theorem ofInt_shl (x : BitVec 32) (k : Nat) :
    BitVec.ofInt 32 (x.toInt * (Nat.pow 2 k : Nat)) = x <<< k := by
  have hpow : BitVec.ofNat 32 (Nat.pow 2 k) = BitVec.twoPow 32 k :=
    BitVec.eq_of_toNat_eq (by rw [BitVec.toNat_ofNat, BitVec.toNat_twoPow]; rfl)
  rw [BitVec.ofInt_mul, BitVec.ofInt_toInt, BitVec.ofInt_natCast, hpow,
    BitVec.shiftLeft_eq_mul_twoPow]

theorem ofInt_shr (x : BitVec 32) (k : Nat) :
    BitVec.ofInt 32 (x.toInt / (Nat.pow 2 k : Nat)) = x.sshiftRight k := by
  rw [← BitVec.ofInt_toInt (x := x.sshiftRight k), BitVec.toInt_sshiftRight,
    Int.shiftRight_eq_div_pow]
  rfl

/-- Folding over the signed values of words gives the word that the operator gives. -/
theorem ofInt_fold (op : Operator) (x y : BitVec 32) :
    BitVec.ofInt 32 (op.fold x.toInt y.toInt) = op.onBits x y := by
  cases op with
  | add => rw [fold, BitVec.ofInt_add, BitVec.ofInt_toInt, BitVec.ofInt_toInt, onBits]
  | sub =>
      rw [fold, Int.sub_eq_add_neg, BitVec.ofInt_add, BitVec.ofInt_neg, BitVec.ofInt_toInt,
        BitVec.ofInt_toInt, onBits, BitVec.sub_eq_add_neg]
  | mul => rw [fold, BitVec.ofInt_mul, BitVec.ofInt_toInt, BitVec.ofInt_toInt, onBits]
  | div => rw [fold, Int32.quotient_eq_tdiv, ofInt_div, onBits]
  | rem =>
      rw [fold, Int32.remainder_eq_tmod, ← BitVec.toInt_srem, BitVec.ofInt_toInt, onBits]
  | eq => simp [fold, onBits, ofInt_truth, BitVec.toInt_inj]
  | ne => simp [fold, onBits, ofInt_truth, BitVec.toInt_inj]
  | lt => rw [fold, ofInt_truth, onBits, BitVec.slt_eq_decide]
  | gt => rw [fold, ofInt_truth, onBits, BitVec.slt_eq_decide]
  | le => rw [fold, ofInt_truth, onBits, BitVec.sle_eq_decide]
  | ge => rw [fold, ofInt_truth, onBits, BitVec.sle_eq_decide]
  | shl => rw [fold, places_toInt, ofInt_shl, onBits]
  | shr => rw [fold, places_toInt, ofInt_shr, onBits]
  | and => rw [fold, Int32.ofInt_bitAnd, BitVec.ofInt_toInt, BitVec.ofInt_toInt, onBits]
  | or => rw [fold, Int32.ofInt_bitOr, BitVec.ofInt_toInt, BitVec.ofInt_toInt, onBits]
  | xor => rw [fold, Int32.ofInt_bitXor, BitVec.ofInt_toInt, BitVec.ofInt_toInt, onBits]

theorem toInt_div (x y : BitVec 32) : (x.sdiv y).toInt =
    if x.toInt = Int32.least ∧ y.toInt = -1 then Int32.least else x.toInt.tdiv y.toInt := by
  split
  · rename_i h
    obtain rfl : x = BitVec.intMin 32 := BitVec.eq_of_toInt_eq h.1
    obtain rfl : y = -1#32 := BitVec.eq_of_toInt_eq h.2
    rw [BitVec.intMin_sdiv_neg_one]
    rfl
  · rename_i h
    refine BitVec.toInt_sdiv_of_ne_or_ne x y ?_
    by_cases hx : x = BitVec.intMin 32
    · exact Or.inr fun hy => h ⟨by rw [hx]; rfl, by rw [hy]; rfl⟩
    · exact Or.inl hx

/-- A division by anything but a multiple of `2 ^ 32` has a result, and so has every other
operator. -/
theorem apply_eq_some {op : Operator} {a b : Int}
    (hb : op.isDivision = true → ¬ (4294967296 : Int) ∣ b) :
    op.apply a b = some (op.onBits (BitVec.ofInt 32 a) (BitVec.ofInt 32 b)).toInt := by
  have hguard : (op.isDivision && Int32.wrap b = 0) ≠ true := by
    simp only [Bool.and_eq_true, decide_eq_true_eq, not_and, ne_eq]
    intro hdiv hzero
    rw [Int32.wrap_eq_bmod] at hzero
    exact hb hdiv (Int.dvd_iff_bmod_eq_zero.mpr hzero)
  rw [apply, if_neg hguard, Int32.wrap_eq_toInt, Int32.wrap_eq_toInt, Int32.wrap_eq_toInt,
    ofInt_fold]

theorem ofInt_eq_of_emod_eq {a a' : Int} (h : a' % 4294967296 = a % 4294967296) :
    BitVec.ofInt 32 a' = BitVec.ofInt 32 a := by
  refine BitVec.eq_of_toInt_eq ?_
  rw [BitVec.toInt_ofInt, BitVec.toInt_ofInt, ← Int.emod_bmod a', ← Int.emod_bmod a]
  exact congrArg (Int.bmod · _) h

/-- Folding gives the signed value of what the operator gives on words. So the result is a 32-bit
integer, and nothing of the operands counts but their residues modulo `2 ^ 32`. A quotient is
truncated toward zero, except that the least integer divided by minus one is itself; a remainder has
the sign of the dividend. -/
theorem apply_eq_onBits (op : Operator) (a b : Int)
    (hb : op.isDivision = true → ¬ (4294967296 : Int) ∣ b) :
    ∃ c, op.apply a b = some c ∧
      c = (op.onBits (BitVec.ofInt 32 a) (BitVec.ofInt 32 b)).toInt ∧
      Int32.InRange c ∧
      (∀ a' b' : Int, a' % 4294967296 = a % 4294967296 → b' % 4294967296 = b % 4294967296 →
        op.apply a' b' = some c) ∧
      (op = .div → c =
        if Int32.wrap a = Int32.least ∧ Int32.wrap b = -1 then Int32.least
        else (Int32.wrap a).tdiv (Int32.wrap b)) ∧
      (op = .rem → c = (Int32.wrap a).tmod (Int32.wrap b)) := by
  refine ⟨_, apply_eq_some hb, rfl, ?_, fun a' b' ha' hb' => ?_, ?_, ?_⟩
  · rw [← ofInt_fold, ← Int32.wrap_eq_toInt]
    exact Int32.wrap_inRange _
  · rw [← ofInt_eq_of_emod_eq ha', ← ofInt_eq_of_emod_eq hb']
    refine apply_eq_some fun hdiv hdvd => hb hdiv ?_
    exact Int.dvd_of_emod_eq_zero (hb' ▸ Int.emod_eq_zero_of_dvd hdvd)
  · rintro rfl
    rw [Int32.wrap_eq_toInt, Int32.wrap_eq_toInt]
    exact toInt_div _ _
  · rintro rfl
    rw [Int32.wrap_eq_toInt, Int32.wrap_eq_toInt]
    exact BitVec.toInt_srem _ _

/-- A comparison gives one or zero. -/
theorem apply_of_isComparison {op : Operator} (h : op.isComparison = true) (a b : Int) :
    ∃ holds : Bool, op.apply a b = some (truth holds) := by
  have hwrap : ∀ holds : Bool, Int32.wrap (truth holds) = truth holds := by decide
  cases op with
  | eq | ne | lt | gt | le | ge => exact ⟨_, congrArg some (hwrap _)⟩
  | _ => cases h

/-- The dividend wraps to the least integer and the divisor to minus one. -/
theorem apply_eq_onBits_sample :
    Int32.wrap 2147483648 = Int32.least ∧ Int32.wrap 8589934591 = -1 ∧
      ¬ (4294967296 : Int) ∣ 8589934591 ∧
      Operator.div.apply 2147483648 8589934591 = some Int32.least ∧
      Operator.div.apply Int32.least (-1) = some Int32.least := by
  have hdvd : ¬ (4294967296 : Int) ∣ 8589934591 := by decide
  obtain ⟨c, hc, -, -, hresidues, hdiv, -⟩ :=
    apply_eq_onBits .div 2147483648 8589934591 fun _ => hdvd
  obtain rfl : c = Int32.least := hdiv rfl
  exact ⟨by decide, by decide, hdvd, hc, hresidues _ _ (by decide) (by decide)⟩

end Operator

end ConstFlow
