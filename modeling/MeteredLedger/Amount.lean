/-!
# Bounded amounts

Balances and volumes are signed 64-bit words; fees and complexities are unsigned 64-bit words.
Arithmetic on them is exact on integers first and then brought back into range: either it is
refused (`ofInt?`, `add?`) or it stops at the nearest bound (`clamp`, `saturate64`). The lemmas
below give the integer each of them holds.
-/

namespace MeteredLedger

/-- An amount of the native token or of an issued asset. Integers of scripts are the same words. -/
abbrev Amount := Int64

namespace Amount

/-- The least integer that is an amount. -/
abbrev least : Int := -9223372036854775808

/-- The greatest integer that is an amount. -/
abbrev greatest : Int := 9223372036854775807

theorem least_le_toInt (a : Amount) : least ≤ a.toInt := a.le_toInt

theorem toInt_le_greatest (a : Amount) : a.toInt ≤ greatest := Int.le_of_lt_add_one a.toInt_lt

/-! ## Refusing what is out of range -/

/-- The amount with this exact value, if it is in range. -/
def ofInt? (x : Int) : Option Amount :=
  if least ≤ x ∧ x ≤ greatest then some (Int64.ofInt x) else none

theorem ofInt?_eq_some_iff {x : Int} {a : Amount} : ofInt? x = some a ↔ a.toInt = x := by
  unfold ofInt?
  constructor
  · split
    · rename_i h
      intro e
      rw [← Option.some_inj.1 e, Int64.toInt_ofInt_of_le h.1 (Int.lt_add_one_of_le h.2)]
    · exact nofun
  · rintro rfl
    rw [if_pos ⟨a.least_le_toInt, a.toInt_le_greatest⟩, Int64.ofInt_toInt]

theorem ofInt?_eq_none_iff {x : Int} : ofInt? x = none ↔ ¬(least ≤ x ∧ x ≤ greatest) := by
  unfold ofInt?
  split <;> simp_all

/-- The exact sum, if it is in range. -/
def add? (a b : Amount) : Option Amount := ofInt? (a.toInt + b.toInt)

/-- The exact difference, if it is in range. -/
def sub? (a b : Amount) : Option Amount := ofInt? (a.toInt - b.toInt)

/-- The exact product, if it is in range. -/
def mul? (a b : Amount) : Option Amount := ofInt? (a.toInt * b.toInt)

/-! ## Stopping at the bounds -/

/-- The amount nearest to an integer. -/
def clamp (x : Int) : Amount := Int64.ofIntClamp x

theorem toInt_clamp (x : Int) : (clamp x).toInt = max least (min x greatest) := by
  have lo : Int64.minValue.toInt = -9223372036854775808 := rfl
  have hi : Int64.maxValue.toInt = 9223372036854775807 := rfl
  unfold clamp Int64.ofIntClamp least greatest
  split
  · split
    · rw [Int64.toInt_ofIntLE]; omega
    · omega
  · omega

/-- The sum, stopped at the bounds. -/
def addClamped (a b : Amount) : Amount := clamp (a.toInt + b.toInt)

@[simp] theorem addClamped_zero (a : Amount) : a.addClamped 0 = a := by
  have hleast := a.least_le_toInt
  have hgreatest := a.toInt_le_greatest
  apply Int64.toInt_inj.1
  rw [addClamped, toInt_clamp, Int64.toInt_zero]
  omega

@[simp] theorem zero_addClamped (a : Amount) : addClamped 0 a = a := by
  rw [addClamped, Int.add_comm]
  exact addClamped_zero a

/-- The amount a fee is taken as: no fee exceeds the largest amount. -/
def ofFee (fee : UInt64) : Amount := clamp fee.toNat

theorem toInt_neg_of_nonneg {a : Amount} (h : 0 ≤ a) : (-a).toInt = -a.toInt := by
  have hlt := a.toInt_lt
  have hnonneg : 0 ≤ a.toInt := Int64.le_iff_toInt_le.1 h
  rw [Int64.toInt_neg]
  exact Int.bmod_eq_of_le (by omega) (by omega)

theorem ofFee_nonneg (fee : UInt64) : 0 ≤ ofFee fee := by
  have hzero : (0 : Int64).toInt = 0 := rfl
  rw [Int64.le_iff_toInt_le, hzero, ofFee, toInt_clamp]
  unfold greatest least
  omega

theorem toInt_ofFee {fee : UInt64} (h : (fee.toNat : Int) ≤ greatest) :
    (ofFee fee).toInt = fee.toNat := by
  unfold greatest at h
  rw [ofFee, toInt_clamp]
  unfold greatest least
  omega

end Amount

/-- The 64-bit word nearest to a natural number. -/
def saturate64 (n : Nat) : UInt64 := UInt64.ofNatClamp n

theorem toNat_saturate64 (n : Nat) : (saturate64 n).toNat = min n (UInt64.size - 1) := by
  unfold saturate64 UInt64.ofNatClamp
  split <;> rw [UInt64.toNat_ofNatLT] <;> omega

theorem saturate64_toNat (w : UInt64) : saturate64 w.toNat = w := by
  have hlt := w.toNat_lt
  apply UInt64.toNat_inj.1
  rw [toNat_saturate64, UInt64.size]
  omega

theorem saturate64_add (m n : Nat) :
    saturate64 ((saturate64 m).toNat + (saturate64 n).toNat) = saturate64 (m + n) := by
  apply UInt64.toNat_inj.1
  simp only [toNat_saturate64, UInt64.size]
  omega

/-- The 32-bit word nearest to a natural number. -/
def saturate32 (n : Nat) : UInt32 := UInt32.ofNatClamp n

theorem toNat_saturate32 (n : Nat) : (saturate32 n).toNat = min n (UInt32.size - 1) := by
  unfold saturate32 UInt32.ofNatClamp
  split <;> rw [UInt32.toNat_ofNatLT] <;> omega

theorem saturate32_toNat (w : UInt32) : saturate32 w.toNat = w := by
  have hlt := w.toNat_lt
  apply UInt32.toNat_inj.1
  rw [toNat_saturate32, UInt32.size]
  omega

theorem saturate32_succ (n : Nat) : saturate32 ((saturate32 n).toNat + 1) = saturate32 (n + 1) := by
  apply UInt32.toNat_inj.1
  simp only [toNat_saturate32, UInt32.size]
  omega

end MeteredLedger
