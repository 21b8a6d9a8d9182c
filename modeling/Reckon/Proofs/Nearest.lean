import Reckon.Number.Shortest

/-! # Rounding back

    Every finite double is the nearest to its own number of steps, and it does not matter in which
    units a quotient is given. So the full decimal expansion of a double rounds back to the double,
    and with it the shortest decimal, which is searched for among those that do. -/

namespace Reckon.Double

/-! ### Quotients -/

theorem stepsPerUnit_pos : 0 < stepsPerUnit := by
  decide +kernel

theorem roundEven_mul_right (n d : Nat) {k : Nat} (hk : 0 < k) :
    roundEven (n * k) (d * k) = roundEven n d := by
  simp only [roundEven, Nat.mul_div_mul_right _ _ hk, Nat.mul_mod_mul_right, ← Nat.mul_assoc,
    Nat.mul_lt_mul_right hk]

/-- Whole quotients are not rounded. -/
theorem roundEven_mul_self (n : Nat) {d : Nat} (hd : 0 < d) : roundEven (n * d) d = n := by
  simp only [roundEven, Nat.mul_mod_left, Nat.mul_zero, hd, if_true, Nat.mul_div_cancel _ hd]

/-- The nearest double to a quotient does not depend on the units. -/
theorem nearest_mul_right (n d : Nat) {k : Nat} (hk : 0 < k) :
    nearest (n * k) (d * k) = nearest n d := by
  have hexact : n * k * stepsPerUnit = n * stepsPerUnit * k := Nat.mul_right_comm _ _ _
  have hshift (s : Nat) : (d * k) <<< s = (d <<< s) * k := by
    rw [Nat.shiftLeft_eq, Nat.shiftLeft_eq, Nat.mul_right_comm]
  simp only [nearest, hexact, Nat.mul_div_mul_right _ _ hk, hshift, roundEven_mul_right _ _ hk]

/-! ### Steps -/

/-- A whole number of steps is rounded to `2^53` at most, by the exponent of its leading bit. -/
theorem nearest_of_shift {m shift : Nat} (hlog : (m <<< shift).log2 - 52 = shift) :
    nearest (m <<< shift) stepsPerUnit = min (shift * exponentWeight + m) infinityCode := by
  have hround : roundEven (m <<< shift * stepsPerUnit) (stepsPerUnit <<< shift) = m := by
    rw [Nat.shiftLeft_eq, Nat.shiftLeft_eq, Nat.mul_assoc, Nat.mul_comm (2 ^ shift)]
    exact roundEven_mul_self m (Nat.mul_pos stepsPerUnit_pos (Nat.two_pow_pos shift))
  simp only [nearest, Nat.mul_div_cancel _ stepsPerUnit_pos, hlog, hround]

theorem log2_sub_of_lt {n : Nat} (h : n < exponentWeight) : n.log2 - 52 = 0 := by
  rcases Nat.eq_zero_or_pos n with rfl | hpos
  · rfl
  · have hlog : n.log2 < 52 := (Nat.log2_lt (Nat.ne_of_gt hpos)).mpr h
    omega

theorem log2_shiftLeft_sub {m : Nat} (hlow : exponentWeight ≤ m) (hhigh : m < 2 * exponentWeight)
    (shift : Nat) : (m <<< shift).log2 - 52 = shift := by
  have hpow := Nat.two_pow_pos shift
  have hlog : (m * 2 ^ shift).log2 = 52 + shift := by
    refine (Nat.log2_eq_iff (Nat.ne_of_gt (Nat.mul_pos ?_ hpow))).mpr ⟨?_, ?_⟩
    · exact Nat.lt_of_lt_of_le (by decide) hlow
    · rw [Nat.pow_add]
      exact Nat.mul_le_mul_right _ hlow
    · rw [Nat.add_right_comm, Nat.pow_add]
      exact (Nat.mul_lt_mul_right hpow).mpr hhigh
  rw [Nat.shiftLeft_eq, hlog, Nat.add_sub_cancel_left]

/-- A finite double is the nearest one to its own number of steps. -/
theorem nearest_steps {c : Nat} (h : c < infinityCode) : nearest (steps c) stepsPerUnit = c := by
  rw [steps]
  split
  · next hsmall =>
    have hn : nearest (c <<< 0) stepsPerUnit = _ := nearest_of_shift (log2_sub_of_lt hsmall)
    rw [Nat.zero_mul, Nat.zero_add, Nat.min_eq_left (Nat.le_of_lt h)] at hn
    exact hn
  · next hlarge =>
    have hmod : c % exponentWeight < exponentWeight := Nat.mod_lt _ (by decide)
    rw [nearest_of_shift (log2_shiftLeft_sub (by omega) (by omega) _)]
    have hsum : (c / exponentWeight - 1) * exponentWeight
        + (exponentWeight + c % exponentWeight) = c := by
      rw [exponentWeight] at hlarge ⊢
      omega
    rw [hsum, Nat.min_eq_left (Nat.le_of_lt h)]

theorem steps_pos {c : Nat} (h : 0 < c) : 0 < steps c := by
  rw [steps]
  split
  · exact h
  · rw [Nat.shiftLeft_eq]
    exact Nat.mul_pos (Nat.lt_of_lt_of_le (by decide) (Nat.le_add_right _ _)) (Nat.two_pow_pos _)

end Reckon.Double

namespace Reckon.Decimal

open Double

/-! ### Decimals -/

theorem powerOfTen_succ (k : Nat) : powerOfTen (k + 1) = powerOfTen k * 10 := rfl

theorem powerOfTen_pos (k : Nat) : 0 < powerOfTen k :=
  Nat.pow_pos (by decide)

/-- A decimal with digits after the point is a quotient, unless it is too small. -/
theorem code_of_neg {m k : Nat} (hm : 0 < m) (hk : 0 < k) (hlog : k ≤ 400 + m.log2) :
    code ⟨m, -k⟩ = nearest m (powerOfTen k) := by
  have hhuge : ¬ (400 : Int) ≤ -k := by omega
  have hsmall : ¬ (-k : Int) < -(400 + m.log2) := by omega
  have hneg : ¬ (0 : Int) ≤ -k := by omega
  simp only [code, hugeExponent, Nat.ne_of_gt hm, hhuge, hsmall, hneg, if_false, Int.neg_neg,
    Int.toNat_natCast]

/-- A decimal without digits after the point is a natural number, unless it is too great. -/
theorem code_of_nonneg {m k : Nat} (hm : 0 < m) (hk : k < 400) :
    code ⟨m, k⟩ = nearest (m * powerOfTen k) 1 := by
  have hhuge : ¬ (400 : Int) ≤ k := by omega
  have hsmall : ¬ (k : Int) < -(400 + m.log2) := by omega
  simp only [code, hugeExponent, Nat.ne_of_gt hm, hhuge, hsmall, Int.natCast_nonneg, if_false,
    if_true, Int.toNat_natCast]

/-- A zero after the point changes nothing. -/
theorem code_mul_ten {m k : Nat} (hm : 0 < m) (hk : k < 400) :
    code ⟨m * powerOfTen (k + 1), -1⟩ = code ⟨m, k⟩ := by
  have hpos : 0 < m * powerOfTen (k + 1) := Nat.mul_pos hm (powerOfTen_pos _)
  have hneg := code_of_neg hpos Nat.one_pos (Nat.le_trans (by decide) (Nat.le_add_right 400 _))
  have hten : m * powerOfTen (k + 1) = m * powerOfTen k * 10 := by
    rw [powerOfTen_succ, Nat.mul_assoc]
  rw [hten] at hneg ⊢
  rw [code_of_nonneg hm hk, ← nearest_mul_right _ _ (Nat.succ_pos 9)]
  exact hneg

end Reckon.Decimal

namespace Reckon.Shortest

open Double

/-! ### Shortest decimals -/

/-- All digits of a double round to the double. -/
theorem code_expansion {c : Nat} (hpos : 0 < c) (h : c < infinityCode) :
    (expansion (steps c)).code = c := by
  have hsteps := steps_pos hpos
  have hfive : 0 < Nat.pow 5 1074 := by decide +kernel
  have hten : Decimal.powerOfTen 1074 = stepsPerUnit * Nat.pow 5 1074 := by decide +kernel
  have hm : 0 < steps c * Nat.pow 5 1074 := Nat.mul_pos hsteps hfive
  have hlog : 674 ≤ (steps c * Nat.pow 5 1074).log2 := by
    refine (Nat.le_log2 (Nat.ne_of_gt hm)).mpr (Nat.le_trans ?_ (Nat.le_mul_of_pos_left _ hsteps))
    decide +kernel
  have hcode := Decimal.code_of_neg hm (Nat.succ_pos 1073) (Nat.add_le_add_left hlog 400)
  rw [hten, nearest_mul_right _ _ hfive, nearest_steps h] at hcode
  exact hcode

/-- The shortest decimal rounds to its double. -/
theorem code_decimal {c : Nat} (hpos : 0 < c) (h : c < infinityCode) : (decimal c).code = c := by
  rw [decimal]
  cases hfind : (List.range 17).findSome? fun (i : Nat) =>
      (neighbours (steps c) (leadingPower (steps c) - i)).find? fun d => d.code = c with
  | none => exact code_expansion hpos h
  | some d =>
    obtain ⟨i, -, hi⟩ := List.exists_of_findSome?_eq_some hfind
    have hd := List.find?_some hi
    exact of_decide_eq_true hd

end Reckon.Shortest
