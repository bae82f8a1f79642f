/-!
# Integers of the analysed language

Programs compute with 32-bit two's-complement integers. They are held as integers of any size, and
`wrap` takes an integer to the one of its residue class that lies in the 32-bit range.
-/

namespace ConstFlow.Int32

/-- The least 32-bit integer. -/
def least : Int := -2147483648

/-- The greatest 32-bit integer. -/
def greatest : Int := 2147483647

/-- Whether an integer is a 32-bit integer. -/
def InRange (v : Int) : Prop := least ≤ v ∧ v ≤ greatest

instance (v : Int) : Decidable (InRange v) := by unfold InRange; infer_instance

/-! ## Bits -/

/-- The bits of `m` that `n` does not have. -/
def bitDiff (m n : Nat) : Nat := m ^^^ (m &&& n)

/-- The bits set in both, of integers in unbounded two's complement. -/
def bitAnd : Int → Int → Int
  | .ofNat m, .ofNat n => .ofNat (m &&& n)
  | .ofNat m, .negSucc n => .ofNat (bitDiff m n)
  | .negSucc m, .ofNat n => .ofNat (bitDiff n m)
  | .negSucc m, .negSucc n => .negSucc (m ||| n)

/-- The bits flipped. -/
def bitNot (v : Int) : Int := -v - 1

/-- The bits set in either. -/
def bitOr (a b : Int) : Int := bitNot (bitAnd (bitNot a) (bitNot b))

/-- The bits set in exactly one. -/
def bitXor : Int → Int → Int
  | .ofNat m, .ofNat n => .ofNat (m ^^^ n)
  | .ofNat m, .negSucc n => .negSucc (m ^^^ n)
  | .negSucc m, .ofNat n => .negSucc (m ^^^ n)
  | .negSucc m, .negSucc n => .ofNat (m ^^^ n)

theorem ofNat_bitDiff (m n : Nat) :
    BitVec.ofNat 32 (bitDiff m n) = BitVec.ofNat 32 m &&& ~~~BitVec.ofNat 32 n := by
  rw [bitDiff, BitVec.ofNat_xor, BitVec.ofNat_and]
  refine BitVec.eq_of_getLsbD_eq fun i hi => ?_
  simp only [BitVec.getLsbD_xor, BitVec.getLsbD_and, BitVec.getLsbD_not, hi, decide_true,
    Bool.true_and]
  cases (BitVec.ofNat 32 m).getLsbD i <;> cases (BitVec.ofNat 32 n).getLsbD i <;> rfl

/-! ## Wrapping -/

/-- The 32-bit integer that agrees with `v` modulo `2 ^ 32`: what is above the least one is cut to
32 bits. -/
def wrap (v : Int) : Int := bitAnd (v - least) 4294967295 + least

/-- The lowest 32 bits are a remainder. -/
theorem bitAnd_mask (v : Int) : bitAnd v 4294967295 = v % 4294967296 := by
  cases v with
  | ofNat m =>
      show ((m &&& 4294967295 : Nat) : Int) = (m : Int) % 4294967296
      rw [Nat.and_two_pow_sub_one_eq_mod m 32]
      omega
  | negSucc m =>
      -- all 32 bits are in the mask, so those of `m` are flipped
      have hlt : bitDiff 4294967295 m < 4294967296 :=
        Nat.xor_lt_two_pow (n := 32) (by decide)
          (Nat.lt_of_le_of_lt Nat.and_le_left (by decide))
      have hflip : bitDiff 4294967295 m % 4294967296 = 4294967295 - m % 4294967296 := by
        have h := congrArg BitVec.toNat (ofNat_bitDiff 4294967295 m)
        rw [show BitVec.ofNat 32 4294967295 = BitVec.allOnes 32 from rfl, BitVec.allOnes_and,
          BitVec.toNat_ofNat, BitVec.toNat_not, BitVec.toNat_ofNat] at h
        exact h
      show ((bitDiff 4294967295 m : Nat) : Int) = Int.negSucc m % 4294967296
      rw [Int.negSucc_eq]
      omega

/-- Wrapping is taking the remainder that lies nearest to zero. -/
theorem wrap_eq_bmod (v : Int) : wrap v = v.bmod 4294967296 := by
  rw [wrap, bitAnd_mask, Int.bmod_def, least]
  omega

theorem wrap_inRange (v : Int) : InRange (wrap v) := by
  rw [wrap, bitAnd_mask, InRange, least, greatest]
  omega

/-! ## Division -/

/-- The quotient, cut off toward zero: that of the absolute values, with the sign that it has to
have. -/
def quotient (a b : Int) : Int :=
  let q : Int := (a.natAbs / b.natAbs : Nat)
  if decide (0 ≤ a) = decide (0 ≤ b) then q else -q

/-- What the quotient leaves. -/
def remainder (a b : Int) : Int := a - b * quotient a b

theorem quotient_eq_tdiv (a b : Int) : quotient a b = a.tdiv b := by
  cases a <;> cases b <;> rfl

theorem remainder_eq_tmod (a b : Int) : remainder a b = a.tmod b := by
  rw [remainder, quotient_eq_tdiv, Int.tmod_def]

end ConstFlow.Int32
