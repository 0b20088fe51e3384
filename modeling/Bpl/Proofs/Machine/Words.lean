import Bpl.Proofs.Machine.Step

namespace Int64

variable {x y : Int64}

theorem toInt_eq_bmod (x : Int64) : x.toInt = (x.toBitVec.toNat : Int).bmod (2 ^ 64) := by
  rw [← toInt_toBitVec, BitVec.toInt_eq_toNat_bmod]

theorem toInt_add_of_fits (h : -2 ^ 63 ≤ x.toInt + y.toInt) (h' : x.toInt + y.toInt < 2 ^ 63) :
    (x + y).toInt = x.toInt + y.toInt := by
  rw [toInt_add]
  exact Int.bmod_eq_of_le h h'

theorem toInt_sub_of_fits (h : -2 ^ 63 ≤ x.toInt - y.toInt) (h' : x.toInt - y.toInt < 2 ^ 63) :
    (x - y).toInt = x.toInt - y.toInt := by
  rw [toInt_sub]
  exact Int.bmod_eq_of_le h h'

theorem toInt_mul_of_fits (h : -2 ^ 63 ≤ x.toInt * y.toInt) (h' : x.toInt * y.toInt < 2 ^ 63) :
    (x * y).toInt = x.toInt * y.toInt := by
  rw [toInt_mul]
  exact Int.bmod_eq_of_le h h'

theorem toInt_eight : (8 : Int64).toInt = 8 := rfl

theorem toInt_sub_eight (h : 0 ≤ x.toInt) : (x - 8).toInt = x.toInt - 8 := by
  have hx := x.toInt_lt
  apply toInt_sub_of_fits <;> rw [toInt_eight] <;> omega

theorem toInt_add_eight (h : x.toInt + 8 < 2 ^ 63) : (x + 8).toInt = x.toInt + 8 := by
  have hx := x.le_toInt
  apply toInt_add_of_fits <;> rw [toInt_eight] <;> omega

/-- The address of the word `i` of an array at `x`. -/
theorem toInt_add_eight_mul {i : Int64} {n : Nat} (hi : i.toInt = n)
    (h : x.toInt + 8 * n < 2 ^ 63) (hn : 8 * n < 2 ^ 63) :
    (x + 8 * i).toInt = x.toInt + 8 * n := by
  have hx := x.le_toInt
  have hm : (8 * i).toInt = 8 * n := by
    rw [toInt_mul_of_fits, toInt_eight, hi] <;> rw [toInt_eight, hi] <;> omega
  rw [toInt_add_of_fits, hm] <;> rw [hm] <;> omega

/-- An address is aligned to 16 bytes by a mask. -/
theorem toInt_and_mask (h : 0 ≤ x.toInt) : (x &&& -16).toInt = x.toInt - x.toInt % 16 := by
  have hmask : ∀ i < 64, (-16#64).getLsbD i = decide (4 ≤ i) := by decide
  have hshift : x.toBitVec &&& -16#64 = x.toBitVec >>> 4 <<< 4 := by
    apply BitVec.eq_of_getLsbD_eq
    intro i hi
    rw [BitVec.getLsbD_and, hmask i hi, BitVec.getLsbD_shiftLeft, BitVec.getLsbD_ushiftRight]
    by_cases h4 : 4 ≤ i
    · have : ¬ i < 4 := by omega
      simp [h4, this, hi]
    · have : i < 4 := by omega
      simp [h4, this]
  have hn : (x.toBitVec &&& -16#64).toNat = x.toBitVec.toNat - x.toBitVec.toNat % 16 := by
    have hlt := x.toBitVec.isLt
    rw [hshift, BitVec.toNat_shiftLeft, BitVec.toNat_ushiftRight, Nat.shiftLeft_eq,
      Nat.shiftRight_eq_div_pow]
    omega
  have hx := x.toInt_eq_bmod
  have hand : (x &&& -16).toInt = ((x.toBitVec &&& -16#64).toNat : Int).bmod (2 ^ 64) :=
    toInt_eq_bmod _
  have hlt := x.toBitVec.isLt
  rw [Int.bmod_def] at hx hand
  rw [hand, hn]
  split at hx <;> split <;> omega

/-- The result of a comparison is put into the lowest byte of a register, and then kept alone. -/
theorem low_byte {b : Int64} (hb : b = 0 ∨ b = 1) : (x &&& -256 ||| b) &&& 255 = b := by
  have hmask : ∀ i < 64, (-256#64).getLsbD i = !(255#64).getLsbD i := by decide
  have hbyte : ∀ c : BitVec 64, c = 0 ∨ c = 1 → c &&& 255#64 = c := by
    rintro c (rfl | rfl) <;> rfl
  have hc : b.toBitVec = 0 ∨ b.toBitVec = 1 := by
    rcases hb with rfl | rfl
    · exact .inl rfl
    · exact .inr rfl
  apply Int64.toBitVec_inj.1
  change (x.toBitVec &&& -256#64 ||| b.toBitVec) &&& 255#64 = b.toBitVec
  conv_rhs => rw [← hbyte _ hc]
  apply BitVec.eq_of_getLsbD_eq
  intro i hi
  simp only [BitVec.getLsbD_and, BitVec.getLsbD_or, hmask i hi]
  cases (255#64).getLsbD i <;> simp

/-- An index is inside of an array if it is below the length as an unsigned number. -/
theorem toUInt64_lt_iff {n : UInt64} (hn : n.toNat < 2 ^ 63) :
    ¬ n ≤ x.toUInt64 ↔ 0 ≤ x.toInt ∧ x.toInt < n.toNat := by
  have hx := x.toInt_eq_bmod
  have hlt := x.toBitVec.isLt
  rw [UInt64.le_iff_toNat_le]
  change ¬ n.toNat ≤ x.toBitVec.toNat ↔ _
  rw [hx, Int.bmod_def]
  split <;> omega

end Int64

namespace Bpl.Machine

variable {x y : Int64}

/-- The sign of the dividend is spread over the upper half of it before a division. -/
theorem dividend_of_extended :
    (if x < 0 then (-1 : Int64) else 0).toInt * 2 ^ 64 + x.toUInt64.toNat = x.toInt := by
  have hx := x.toInt_eq_bmod
  have hlt := x.toBitVec.isLt
  have hneg : (-1 : Int64).toInt = -1 := rfl
  have hzero : (0 : Int64).toInt = 0 := rfl
  change _ + (x.toBitVec.toNat : Int) = _
  rw [Int.bmod_def] at hx
  by_cases h : x < 0
  · rw [if_pos h, hneg]
    rw [Int64.lt_iff_toInt_lt, hzero] at h
    split at hx <;> omega
  · rw [if_neg h, hzero]
    rw [Int64.lt_iff_toInt_lt, hzero] at h
    split at hx <;> omega

theorem divide?_eq_some (hy : y ≠ 0) (h : ¬ (x = .minValue ∧ y = -1)) :
    divide? (if x < 0 then -1 else 0) x y = some (x / y, x % y) := by
  have hq : x.toInt.tdiv y.toInt = (x / y).toInt := by
    rw [not_and_or] at h
    rcases h with hx | hy
    · rw [Int64.toInt_div_of_ne_left x y hx]
    · rw [Int64.toInt_div_of_ne_right x y hy]
  have hr : x.toInt.tmod y.toInt = (x % y).toInt := by
    rw [Int64.toInt_mod]
  have hlo := (x / y).le_toInt
  have hhi := (x / y).toInt_lt
  rw [divide?, dividend_of_extended, hq, hr, Int64.ofInt_toInt, Int64.ofInt_toInt]
  exact if_pos ⟨hy, hlo, hhi⟩

end Bpl.Machine
